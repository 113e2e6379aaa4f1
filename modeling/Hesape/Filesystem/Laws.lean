import Hesape.Filesystem.Confined
import Mathlib.Data.List.AList
import Mathlib.Data.List.Dedup

/-!
# A disk as a map of files

The driver is a map from stored paths to contents that lists by prefix, in whatever order.  Over it
the laws a caller expects of keys and directories are compared with what the composed operations do.
They clean a key when it reaches the driver but compare, cut and prefix it as it was spelt.  A file
put without a type gets that of its key's extension, as spelt.  Moving a file between two spellings
of its own key copies it onto itself and removes it.  A directory spelt otherwise than clean lists
no files, and names of directories that are not there.  And a directory deleted without a slash at
its end takes with it every key that begins with the same letters.  Those are the only ways the laws
are broken (`laws_iff`).
-/

namespace Hesape.Filesystem

open Hesape.Run
open Hesape.Text (Bytes)
open Hesape.Text.Path
open List

/-! ### The driver -/

/-- What is stored under a path. -/
structure Content where
  body : Bytes
  contentType : Bytes
deriving DecidableEq

abbrev Contents := AList fun _ : Bytes => Content

/-- The order a listing comes in, which is not promised. -/
structure Order where
  arrange : List Bytes → List Bytes
  perm : ∀ l, (arrange l).Perm l

namespace Content

def info (path : Bytes) (c : Content) : Info := { key := path, size := c.body.length, contentType := c.contentType }

def file (path : Bytes) (c : Content) : File := { c.info path with body := c.body }

end Content

def found (path : Bytes) (s : Contents) : Except Err Content :=
  match s.lookup path with
  | none => .error .notFound
  | some c => .ok c

/-- The map as a driver. -/
def mapAdapter (order : Order) : Adapter Contents where
  put path body contentType := fun s => .ok () (s.insert path { body, contentType })
  get path := fun s => given ((found path s).map (Content.file path)) s
  stat path := fun s => given ((found path s).map (Content.info path)) s
  exists' path := fun s => .ok (s.lookup path).isSome s
  delete path := fun s => .ok () (s.erase path)
  list prefix' := fun s => .ok (order.arrange (s.keys.filter (prefix' <+: ·))) s

/-- What was put there through a disk: under a tenant and a clean key, with a type. -/
structure Files where
  contents : Contents
  stored : ∀ path c, contents.lookup path = some c →
    (∃ tenant, validTenant tenant = true ∧ Named tenant path) ∧ c.contentType ≠ []

def noFiles : Files := ⟨∅, nofun⟩

/-- A spelling `cleanKey` accepts. -/
structure Spelling where
  text : Bytes
  clean : Bytes
  accepted : cleanKey text = .ok clean

theorem Spelling.text_ne (k : Spelling) : k.text ≠ [] ∧ k.text ≠ [47] := by
  have h := k.accepted
  constructor <;>
  · intro ht
    rw [ht] at h
    cases h

variable {order : Order} {d : Disk Contents} {g : Grant}

/-- The disk over the map. -/
def Over (order : Order) (d : Disk Contents) : Prop := d.adapter = mapAdapter order

/-! ### One call on the map -/

theorem key_spelt (hvalid : validTenant g.tenant) (k : Spelling) : key g k.text = .ok (g.tenant ++ 47 :: k.clean) := by
  rw [key, if_neg (Auth.tenantName_codes hvalid).1, if_neg (by simp [hvalid]), k.accepted]
  rfl

theorem key_clean (hvalid : validTenant g.tenant) {c : Bytes} (hc : Clean c) : key g c = .ok (g.tenant ++ 47 :: c) :=
  key_spelt hvalid ⟨c, c, cleanKey_of_clean hc (.inl rfl)⟩

variable {α β : Type} {s t : Contents} {e : Err} {k path : Bytes} {dir : Spelling}

variable {a : α} {x : EStateM Err Contents α}

theorem given_bind {x : Except Err α} (hx : x = .ok a) (f : α → EStateM Err Contents β) (s : Contents) :
    (given x >>= f) s = f a s := by
  subst hx
  rfl

theorem bind_ok (hx : x s = .ok a t)
    (f : α → EStateM Err Contents β) : (x >>= f) s = f a t := by
  show EStateM.bind x f s = _
  rw [EStateM.bind, hx]

theorem bind_error (hx : x s = .error e t)
    (f : α → EStateM Err Contents β) : (x >>= f) s = .error e t := by
  show EStateM.bind x f s = _
  rw [EStateM.bind, hx]

theorem wrap_ok (h : x s = .ok a t) (op : String) (k : Bytes) :
    d.wrap op k x s = .ok a t := by
  have hattempt : attempt x s = .ok (.ok a) t := by rw [attempt, answer_of_ok h, after_of_ok h]
  rw [Disk.wrap, bind_ok hattempt]
  rfl

theorem wrap_error (h : x s = .error e t) (op : String)
    (k : Bytes) : d.wrap op k x s = .error (.wrapped op k d.name e) t := by
  have hattempt : attempt x s = .ok (.error e) t := by rw [attempt, answer_of_error h, after_of_error h]
  rw [Disk.wrap, bind_ok hattempt]
  rfl

theorem writable_of_write (hw : g.readOnly = false) : Disk.writable g = .ok () := if_neg (by simp [hw])

theorem writable_of_readOnly (hw : g.readOnly) : Disk.writable g = .error .readOnly := if_pos hw

variable (hd : Over order d)
include hd

theorem get_found (hk : key g k = .ok path) {c : Content}
    (hc : s.lookup path = some c) : d.get g k s = .ok { c.file path with key := k } s := by
  have hget : (mapAdapter order).get path s = .ok (c.file path) s := by
    show given ((found path s).map (Content.file path)) s = _
    rw [found, hc]
    rfl
  rw [Disk.get, hd, given_bind hk, bind_ok (wrap_ok hget _ _)]
  rfl

theorem get_missing (hk : key g k = .ok path)
    (hc : s.lookup path = none) : d.get g k s = .error (.wrapped "get" k d.name .notFound) s := by
  have hget : (mapAdapter order).get path s = .error .notFound s := by
    show given ((found path s).map (Content.file path)) s = _
    rw [found, hc]
    rfl
  rw [Disk.get, hd, given_bind hk, bind_error (wrap_error hget _ _)]

theorem put_spec (hw : g.readOnly = false) (hk : key g k = .ok path) (s : Contents)
    {body contentType : Bytes} :
    d.put g k body contentType s = .ok () (s.insert path
      ⟨body, if contentType = [] then typeOf d.typeByExtension k else contentType⟩) := by
  have hput (type : Bytes) :
      (mapAdapter order).put path body type s = .ok () (s.insert path ⟨body, type⟩) := rfl
  rw [Disk.put, hd, given_bind (writable_of_write hw), given_bind hk, wrap_ok (hput _)]

theorem delete_spec (hw : g.readOnly = false) (hk : key g k = .ok path) (s : Contents) :
    d.delete g k s = .ok () (s.erase path) := by
  have hdelete : (mapAdapter order).delete path s = .ok () (s.erase path) := rfl
  rw [Disk.delete, hd, given_bind (writable_of_write hw), given_bind hk, wrap_ok hdelete]

omit hd

theorem delete_readOnly (hw : g.readOnly) (k : Bytes) (s : Contents) : d.delete g k s = .error .readOnly s := by
  rw [Disk.delete, writable_of_readOnly hw]
  rfl

theorem put_readOnly (hw : g.readOnly) (k body contentType : Bytes) (s : Contents) :
    d.put g k body contentType s = .error .readOnly s := by
  rw [Disk.put, writable_of_readOnly hw]
  rfl

/-! ### Stored keys -/

/-- A key the tenant has a file under. -/
def Has (g : Grant) (s : Contents) (k : Bytes) : Prop := validTenant g.tenant = true ∧ g.tenant ++ 47 :: k ∈ s

theorem tenant_eq {a b x y : Bytes} (ha : validTenant a) (hb : validTenant b)
    (h : a ++ 47 :: x = b ++ 47 :: y) : a = b ∧ x = y := by
  have htake (t rest : Bytes) (ht : validTenant t) : (t ++ 47 :: rest).takeWhile (· ≠ 47) = t := by
    rw [takeWhile_append_of_pos fun c hc => by
      simpa using fun h : c = 47 => (proper_of_validTenant ht).1.2.1 (h ▸ hc)]
    simp
  have heq : a = b := by rw [← htake a x ha, h, htake b y hb]
  subst heq
  exact ⟨rfl, cons_injective (append_cancel_left h)⟩

/-- The keys that are stored are clean. -/
theorem clean_of_has {files : Files} (h : Has g files.contents k) : Clean k := by
  obtain ⟨hvalid, hmem⟩ := h
  obtain ⟨content, hlookup⟩ := Option.isSome_iff_exists.mp (AList.lookup_isSome.mpr hmem)
  obtain ⟨⟨_, htenant, c, hc, heq⟩, -⟩ := files.stored _ content hlookup
  rw [(tenant_eq hvalid htenant heq).2]
  exact hc

/-- The key a listing of all files begins with: a directory where the spelling says so. -/
def Spelling.listed (k : Spelling) : Bytes := if endsInSlash k.text then k.clean ++ [47] else k.clean

theorem prefixPath_spelt (hvalid : validTenant g.tenant) (k : Spelling) :
    prefixPath g k.text = .ok (g.tenant ++ 47 :: k.listed) := by
  rw [prefixPath, if_neg (Auth.tenantName_codes hvalid).1, if_neg (by simp [hvalid]), if_neg (not_or.mpr k.text_ne), k.accepted]
  rfl

/-- What a listing of all files comes to. -/
def listing (order : Order) (g : Grant) (s : Contents) (pre : Bytes) : List Bytes :=
  sorted (Disk.ownKeys g (order.arrange (s.keys.filter (g.tenant ++ 47 :: pre <+: ·))))

theorem allFiles_spelt (hd : Over order d) (hvalid : validTenant g.tenant) (k : Spelling) (s : Contents) :
    d.allFiles g k.text s =
      .ok (listing order g s k.listed) s := by
  have hlist (full : Bytes) :
      (mapAdapter order).list full s = .ok (order.arrange (s.keys.filter (full <+: ·))) s := rfl
  rw [Disk.allFiles, hd, given_bind (prefixPath_spelt hvalid k), bind_ok (wrap_ok (hlist _) _ _)]
  rfl

theorem trimPrefix_append (dir rest : Bytes) : trimPrefix dir (dir ++ rest) = rest := by
  rw [trimPrefix, if_pos (prefix_append _ _), drop_left]

/-- Each stored key that begins as asked, once. -/
theorem mem_listing (hvalid : validTenant g.tenant) {pre : Bytes} :
    k ∈ listing order g s pre ↔ Has g s k ∧ pre <+: k := by
  have hcons (t x : Bytes) : t ++ 47 :: x = (t ++ [47]) ++ x := by simp
  unfold listing sorted Disk.ownKeys
  rw [mem_insertionSort, mem_map]
  constructor
  · rintro ⟨_, hpath, rfl⟩
    obtain ⟨hmem, hown⟩ := mem_filter.mp hpath
    obtain ⟨_, rfl⟩ := of_decide_eq_true hown
    obtain ⟨hkeys, hpre⟩ := mem_filter.mp ((order.perm _).mem_iff.mp hmem)
    have hpre' := of_decide_eq_true hpre
    rw [hcons, prefix_append_right_inj] at hpre'
    rw [trimPrefix_append]
    refine ⟨⟨hvalid, ?_⟩, hpre'⟩
    rw [hcons]
    exact AList.mem_keys.mpr hkeys
  · rintro ⟨⟨-, hmem⟩, hpre⟩
    refine ⟨g.tenant ++ 47 :: k, mem_filter.mpr ⟨(order.perm _).mem_iff.mpr (mem_filter.mpr ⟨AList.mem_keys.mp hmem, ?_⟩), ?_⟩, ?_⟩
    · rw [hcons g.tenant pre, hcons g.tenant k]
      exact decide_eq_true ((prefix_append_right_inj _).mpr hpre)
    · rw [hcons g.tenant k]
      exact decide_eq_true (prefix_append _ _)
    · rw [hcons g.tenant k, trimPrefix_append]

theorem nodup_listing {pre : Bytes} : (listing order g s pre).Nodup := by
  unfold listing sorted Disk.ownKeys
  rw [(perm_insertionSort _ _).nodup_iff]
  refine List.Nodup.map_on ?_ (List.Nodup.filter _ ((order.perm _).nodup_iff.mpr (s.keys_nodup.filter _)))
  intro x hx y hy heq
  obtain ⟨_, rfl⟩ := of_decide_eq_true (mem_filter.mp hx).2
  obtain ⟨_, rfl⟩ := of_decide_eq_true (mem_filter.mp hy).2
  rw [trimPrefix_append, trimPrefix_append] at heq
  rw [heq]

/-! ### The laws -/

/-- What is read of a file. -/
def read (f : File) : Bytes × Bytes × Nat := (f.body, f.contentType, f.size)

/-- An operation on one key, by itself or with another key. -/
inductive KeyOp
  | put (body contentType : Bytes)
  | get
  | stat
  | exists'
  | delete
  | copyTo (dst : Bytes)
  | copyFrom (src : Bytes)
  | moveTo (dst : Bytes)
  | moveFrom (src : Bytes)
  | append (data : Bytes)
  | prepend (data : Bytes)

namespace KeyOp

def call (k : Bytes) : KeyOp → Call
  | put body contentType => .put k body contentType
  | get => .get k
  | stat => .stat k
  | exists' => .exists' k
  | delete => .delete k
  | copyTo dst => .copy k dst
  | copyFrom src => .copy src k
  | moveTo dst => .move k dst
  | moveFrom src => .move src k
  | append data => .append k data
  | prepend data => .prepend k data

/-- A move to or from another file than the key's own. -/
def Apart (clean : Bytes) : KeyOp → Prop
  | moveTo k | moveFrom k => cleanKey k ≠ .ok clean
  | _ => True

end KeyOp

def Info.unkeyed (i : Info) : Info := { i with key := [] }

def File.unkeyed (f : File) : File := { f with key := [] }

/-- What is answered besides the key that was asked for. -/
def Answer.unkeyed : Answer → Answer
  | file f => file f.unkeyed
  | info i => info i.unkeyed
  | x => x

/-- Two spellings of one clean form name one file in every operation: it answers the same and leaves
the same behind through either.  What a move from one to the other does is said by `MovesFile`. -/
def NamesOne (d : Disk Contents) (g : Grant) (s : Contents) (a b : Spelling) : Prop :=
  a.clean = b.clean → ∀ op : KeyOp, op.Apart a.clean →
    (answer (d.call g (op.call a.text)) s).toOption.map Answer.unkeyed =
      (answer (d.call g (op.call b.text)) s).toOption.map Answer.unkeyed ∧
    after (d.call g (op.call a.text)) s = after (d.call g (op.call b.text)) s

/-- A file moved is read at its new key, and no longer at its old one unless that is the same file. -/
def MovesFile (d : Disk Contents) (g : Grant) (s : Contents) (src dst : Spelling) : Prop :=
  answer (d.move g src.text dst.text) s = .ok () →
    (answer (d.get g dst.text) (after (d.move g src.text dst.text) s)).map read = (answer (d.get g src.text) s).map read ∧
    (src.clean ≠ dst.clean → ∃ e, answer (d.get g src.text) (after (d.move g src.text dst.text) s) = .error e ∧
      e.isNotFound = true)

/-- The files of a directory are the stored keys directly inside. -/
def ListsFiles (d : Disk Contents) (g : Grant) (s : Contents) (dir : Spelling) : Prop :=
  ∀ out, answer (d.files g dir.text) s = .ok out →
    out.Nodup ∧ ∀ k, k ∈ out ↔ Has g s k ∧ ∃ name, (47 : UInt8) ∉ name ∧ k = dir.clean ++ 47 :: name

/-- The directories inside are those that hold a stored key, directly inside or at any depth. -/
def ListsDirectories (d : Disk Contents) (g : Grant) (s : Contents) (dir : Spelling) (recursive : Bool) : Prop :=
  ∀ out, answer (d.directories' g dir.text recursive) s = .ok out →
    out.Nodup ∧ ∀ n, n ∈ out ↔ ∃ name, (recursive = false → (47 : UInt8) ∉ name) ∧
      n = dir.clean ++ 47 :: (name ++ [47]) ∧ ∃ k, Has g s k ∧ n <+: k

/-- A directory deleted takes the keys inside it, and nothing else. -/
def DeletesInside (d : Disk Contents) (g : Grant) (s : Contents) (dir : Spelling) : Prop :=
  answer (d.deleteDirectory g dir.text) s = .ok () →
    ∀ path, (after (d.deleteDirectory g dir.text) s).lookup path =
      if g.tenant ++ 47 :: (dir.clean ++ [47]) <+: path then none else s.lookup path

/-! ### Spellings -/

/-- One of two spellings ends in a slash, or gets one. -/
theorem asDirectory_spelt (k : Spelling) :
    ∃ q, asDirectory k.text = q ++ [47] ∧ (k.text = q ∨ k.text = q ++ [47]) := by
  unfold asDirectory
  by_cases hslash : endsInSlash k.text
  · obtain ⟨q, hq⟩ := getLast?_eq_some_iff.mp (of_decide_eq_true hslash)
    rw [if_pos (.inr hslash)]
    exact ⟨q, hq, .inr hq⟩
  · rw [if_neg (by simp [k.text_ne.1, hslash])]
    exact ⟨k.text, rfl, .inl rfl⟩

/-- The directory, spelt with its slash. -/
def Spelling.directory (k : Spelling) : Spelling where
  text := asDirectory k.text
  clean := k.clean
  accepted := by
    unfold asDirectory
    split_ifs with hslash
    · exact k.accepted
    · rw [not_or] at hslash
      rw [cleanKey_append_slash k.text_ne.1 (by simpa using hslash.2), k.accepted]

theorem endsInSlash_directory (k : Spelling) : endsInSlash k.directory.text := by
  obtain ⟨q, hq, -⟩ := asDirectory_spelt k
  show endsInSlash (asDirectory k.text)
  rw [hq]
  simp [endsInSlash]

/-- A path all of whose parts are proper is clean. -/
theorem clean_of_append {q rest : Bytes} (h : Clean (q ++ 47 :: rest)) : Clean q := by
  obtain ⟨⟨l, hne, hl, heq⟩, hnul⟩ := h
  have hsplit := splitOn_join hne hl
  rw [← heq, splitOn_append_cons_self] at hsplit
  refine ⟨⟨q.splitOn 47, splitOn_ne_nil 47 q, fun part hp => hl part ?_, (join_splitOn q).symm⟩, ?_⟩
  · rw [← hsplit]
    exact mem_append_left _ hp
  · exact fun hm => hnul (mem_append_left _ hm)

/-- **A clean key never begins with a directory spelt otherwise.** -/
theorem not_begins_unclean (hdir : asDirectory dir.text ≠ dir.clean ++ [47]) (hk : Clean k) :
    ¬ asDirectory dir.text <+: k := by
  obtain ⟨q, hq, htext⟩ := asDirectory_spelt dir
  rintro ⟨_, rfl⟩
  rw [hq, append_assoc, singleton_append] at hk
  have haccepted := cleanKey_of_clean (clean_of_append hk) htext
  rw [dir.accepted] at haccepted
  exact hdir (by rw [hq, Except.ok.inj haccepted])

theorem mem_cuts {recursive : Bool} {t m : Bytes} :
    m ∈ cuts recursive t ↔ ∃ a b, t = a ++ 47 :: b ∧ m = a ++ [47] ∧ (recursive = false → (47 : UInt8) ∉ a) := by
  induction t generalizing m with
  | nil => simp [cuts]
  | cons c t ih =>
    have hlater (hc : recursive = false → c ≠ 47) : m ∈ (cuts recursive t).map (c :: ·) ↔
        ∃ a b, t = a ++ 47 :: b ∧ m = c :: a ++ [47] ∧ (recursive = false → (47 : UInt8) ∉ c :: a) := by
      rw [mem_map]
      constructor
      · rintro ⟨_, hm', rfl⟩
        obtain ⟨a, b, rfl, rfl, ha⟩ := ih.mp hm'
        exact ⟨a, b, rfl, rfl, fun hr => by simpa using ⟨Ne.symm (hc hr), ha hr⟩⟩
      · rintro ⟨a, b, rfl, rfl, ha⟩
        exact ⟨a ++ [47], ih.mpr ⟨a, b, rfl, rfl, fun hr hm => ha hr (mem_cons_of_mem _ hm)⟩, rfl⟩
    rw [cuts]
    split_ifs with hc hr
    · rw [mem_cons, hlater (fun h => by simp [hr] at h), hc]
      constructor
      · rintro (rfl | ⟨a, b, rfl, rfl, ha⟩)
        · exact ⟨[], t, rfl, rfl, by simp⟩
        · exact ⟨47 :: a, b, rfl, rfl, ha⟩
      · rintro ⟨a, b, heq, rfl, ha⟩
        cases a with
        | nil => exact .inl rfl
        | cons x a =>
          obtain ⟨rfl, rfl⟩ := heq
          exact .inr ⟨a, b, rfl, rfl, ha⟩
    · rw [mem_singleton, hc]
      constructor
      · rintro rfl
        exact ⟨[], t, rfl, rfl, by simp⟩
      · rintro ⟨a, b, heq, rfl, ha⟩
        cases a with
        | nil => rfl
        | cons =>
          obtain ⟨rfl, -⟩ := heq
          exact absurd mem_cons_self (ha (by simpa using hr))
    · rw [hlater fun _ => hc]
      constructor
      · rintro ⟨a, b, rfl, rfl, ha⟩
        exact ⟨c :: a, b, rfl, rfl, ha⟩
      · rintro ⟨a, b, heq, rfl, ha⟩
        cases a with
        | nil =>
          rw [nil_append, cons.injEq] at heq
          exact absurd heq.1 hc
        | cons x a =>
          obtain ⟨rfl, rfl⟩ := heq
          exact ⟨a, b, rfl, rfl, ha⟩

/-! ### What breaks them -/

/-- Errors that both say that nothing was found, or neither. -/
def SameFound (e e' : Err) : Prop := e.isNotFound = e'.isNotFound

def SameAnswer (x y : Answer) : Prop := x.unkeyed = y.unkeyed

theorem spelt_of_key {a b : Bytes} (hkey : key g a = key g b)
    (htype : g.readOnly = false → validTenant g.tenant = true →
      typeOf d.typeByExtension a = typeOf d.typeByExtension b) : Spelt d g SameFound a b :=
  ⟨hkey, htype, fun _ => rfl, fun _ _ => rfl, fun _ _ h => h⟩

/-- **An operation does the same through two spellings** of a key that lead to one type. -/
theorem coupled_keyOp {a b : Bytes} (hab : Spelt d g SameFound a b) (op : KeyOp)
    (hother : ∀ k, op = .moveTo k ∨ op = .moveFrom k → k ≠ a ∧ k ≠ b) :
    Coupled SameFound Eq SameAnswer (d.call g (op.call a)) (d.call g (op.call b)) := by
  have h : Keeps d g Eq := by
    have hself {α : Type} (x : EStateM Err Contents α) : Steady Eq x :=
      coupled_of_eq fun _ _ hst => hst ▸ ⟨rfl, rfl⟩
    exact fun _ => ⟨fun _ _ _ _ _ => hself _, fun _ _ => hself _, fun _ _ => hself _, fun _ _ => hself _,
      fun _ _ => hself _, fun _ _ => hself _⟩
  have hs (k : Bytes) : Spelt d g SameFound k k := spelt_of_key rfl fun _ _ => rfl
  have hdone {x y : EStateM Err Contents Unit} (h : Coupled SameFound Eq Eq x y) :
      Coupled SameFound Eq SameAnswer (do x; pure .done) (do y; pure .done) :=
    coupled_bind h fun _ => .pure rfl
  cases op with
  | put body contentType => exact hdone (Disk.coupled_put h hab body contentType)
  | get =>
    refine (Disk.coupled_get h hab).bind ?_
    rintro _ _ ⟨f, rfl, rfl⟩
    exact .pure rfl
  | stat =>
    refine (Disk.coupled_stat h hab).bind ?_
    rintro _ _ ⟨i, rfl, rfl⟩
    exact .pure rfl
  | exists' => exact coupled_bind (Disk.coupled_exists h hab) fun _ => .pure rfl
  | delete => exact hdone (Disk.coupled_delete h hab)
  | copyTo dst => exact hdone (Disk.coupled_copy h hab (hs dst))
  | copyFrom src => exact hdone (Disk.coupled_copy h (hs src) hab)
  | moveTo dst =>
    obtain ⟨ha, hb⟩ := hother dst (.inl rfl)
    exact hdone (Disk.coupled_move h hab (hs dst) (iff_of_false ha.symm hb.symm))
  | moveFrom src =>
    obtain ⟨ha, hb⟩ := hother src (.inr rfl)
    exact hdone (Disk.coupled_move h (hs src) hab (iff_of_false ha hb))
  | append data => exact hdone (Disk.coupled_join h hab data false)
  | prepend data => exact hdone (Disk.coupled_join h hab data true)

/-- **Two spellings name one file unless they give it different types.** -/
theorem namesOne_iff (hd : Over order d) (s : Contents) (a b : Spelling) :
    NamesOne d g s a b ↔ a.clean ≠ b.clean ∨ g.readOnly ∨ validTenant g.tenant = false ∨
      typeOf d.typeByExtension a.text = typeOf d.typeByExtension b.text := by
  by_cases hclean : a.clean = b.clean
  swap
  · exact ⟨fun _ => .inl hclean, fun _ h => absurd h hclean⟩
  have hkey : key g a.text = key g b.text := by rw [key, key, a.accepted, b.accepted, hclean]
  constructor
  · intro h
    cases hw : g.readOnly with
    | true => exact .inr (.inl rfl)
    | false =>
      cases hvalid : validTenant g.tenant with
      | false => exact .inr (.inr (.inl rfl))
      | true =>
        have hput (k : Spelling) : after (d.call g ((KeyOp.put [] []).call k.text)) s
            = s.insert (g.tenant ++ 47 :: k.clean) ⟨[], typeOf d.typeByExtension k.text⟩ :=
          after_of_ok (bind_ok (put_spec hd hw (key_spelt hvalid k) s) _)
        have hsame := (h hclean (.put [] []) trivial).2
        rw [hput a, hput b, hclean] at hsame
        have hlookup := congrArg (AList.lookup (g.tenant ++ 47 :: b.clean)) hsame
        rw [AList.lookup_insert, AList.lookup_insert] at hlookup
        exact .inr (.inr (.inr (congrArg Content.contentType (Option.some.inj hlookup))))
  · intro h _ op hapart
    have htype : g.readOnly = false → validTenant g.tenant = true →
        typeOf d.typeByExtension a.text = typeOf d.typeByExtension b.text := by
      intro hw hvalid
      simpa [hclean, hw, hvalid] using h
    have hother : ∀ k, op = .moveTo k ∨ op = .moveFrom k → k ≠ a.text ∧ k ≠ b.text := by
      intro k hk
      have hk : cleanKey k ≠ .ok a.clean := by rcases hk with rfl | rfl <;> exact hapart
      exact ⟨fun h => hk (h ▸ a.accepted), fun h => hk (h ▸ hclean ▸ b.accepted)⟩
    obtain ⟨hafter, halike⟩ := coupled_keyOp (spelt_of_key hkey htype) op hother s s rfl
    refine ⟨?_, hafter⟩
    match answer (d.call g (op.call a.text)) s, answer (d.call g (op.call b.text)) s, halike with
    | .ok _, .ok _, h => exact congrArg some h
    | .error _, .error _, _ => rfl

theorem copy_error {src dst : Bytes} (h : d.get g src s = .error e s) : d.copy g src dst s = .error e s := by
  rw [Disk.copy, bind_error h]

theorem get_invalid (hvalid : ¬ validTenant g.tenant) (k : Bytes) (s : Contents) : ∃ e, d.get g k s = .error e s := by
  have hkey : ∃ e, key g k = .error e := by
    rw [key]
    split_ifs with hnone hv
    · exact ⟨_, rfl⟩
    · exact ⟨_, rfl⟩
    · exact absurd (by simpa using hv) hvalid
  obtain ⟨e, he⟩ := hkey
  exact ⟨e, by rw [Disk.get, he]; rfl⟩

theorem move_error {src dst : Bytes} (hne : src ≠ dst) (h : d.copy g src dst s = .error e s) :
    answer (d.move g src dst) s ≠ .ok () := by
  have hmove : d.move g src dst s = .error e s := by rw [Disk.move, if_neg hne, bind_error h]
  rw [answer_of_error hmove]
  nofun

/-- What moving comes to: the content under the new path, and nothing under the old. -/
theorem move_spec (hd : Over order d) (hvalid : validTenant g.tenant) (hw : g.readOnly = false) {src dst : Spelling}
    (hne : src.text ≠ dst.text) {c : Content} (hc : s.lookup (g.tenant ++ 47 :: src.clean) = some c)
    (htype : c.contentType ≠ []) :
    d.move g src.text dst.text s =
      .ok () ((s.insert (g.tenant ++ 47 :: dst.clean) c).erase (g.tenant ++ 47 :: src.clean)) := by
  have hcopy : d.copy g src.text dst.text s = .ok () (s.insert (g.tenant ++ 47 :: dst.clean) c) := by
    rw [Disk.copy, bind_ok (get_found hd (key_spelt hvalid src) hc)]
    have hput : d.put g dst.text c.body c.contentType s = _ := put_spec hd hw (key_spelt hvalid dst) s
    rwa [if_neg htype] at hput
  rw [Disk.move, if_neg hne, bind_ok hcopy, delete_spec hd hw (key_spelt hvalid src)]

/-- **A file is moved unless its own key is spelt twice.** -/
theorem movesFile_iff (hd : Over order d) (files : Files) (src dst : Spelling) :
    MovesFile d g files.contents src dst ↔ src.text = dst.text ∨ src.clean ≠ dst.clean ∨ g.readOnly ∨
      ¬ Has g files.contents src.clean := by
  by_cases htext : src.text = dst.text
  · refine ⟨fun _ => .inl htext, fun _ _ => ?_⟩
    have hclean : src.clean = dst.clean := by
      have := src.accepted
      rw [htext, dst.accepted] at this
      exact (Except.ok.inj this).symm
    have hmove : d.move g src.text dst.text files.contents = .ok () files.contents := by
      rw [Disk.move, if_pos htext]
      rfl
    rw [after_of_ok hmove, htext]
    exact ⟨rfl, fun h => absurd hclean h⟩
  by_cases hvalid : validTenant g.tenant
  · cases hc : files.contents.lookup (g.tenant ++ 47 :: src.clean) with
    | none =>
      have hhas : ¬ Has g files.contents src.clean := fun h => AList.lookup_eq_none.mp hc h.2
      exact ⟨fun _ => .inr (.inr (.inr hhas)), fun _ hok =>
        absurd hok (move_error htext (copy_error (get_missing hd (key_spelt hvalid src) hc)))⟩
    | some c =>
      have hhas : Has g files.contents src.clean := ⟨hvalid, AList.lookup_isSome.mp (by rw [hc]; rfl)⟩
      cases hw : g.readOnly with
      | true =>
        have hcopy : d.copy g src.text dst.text files.contents = .error .readOnly files.contents := by
          rw [Disk.copy, bind_ok (get_found hd (key_spelt hvalid src) hc), put_readOnly hw]
        exact ⟨fun _ => .inr (.inr (.inl rfl)), fun _ hok => absurd hok (move_error htext hcopy)⟩
      | false =>
        have hmove := move_spec hd hvalid hw htext hc (files.stored _ c hc).2
        have hsrc := AList.lookup_erase (g.tenant ++ 47 :: src.clean) (files.contents.insert (g.tenant ++ 47 :: dst.clean) c)
        unfold MovesFile
        rw [answer_of_ok hmove, after_of_ok hmove, answer_of_ok (get_found hd (key_spelt hvalid src) hc)]
        by_cases hclean : src.clean = dst.clean
        · -- copied onto itself and removed
          rw [hclean] at hsrc ⊢
          constructor
          · intro h
            obtain ⟨hread, -⟩ := h rfl
            rw [answer_of_error (get_missing hd (key_spelt hvalid dst) hsrc)] at hread
            cases hread
          · rintro (h | h | h | h)
            · exact absurd h htext
            · exact absurd rfl h
            · cases h
            · exact absurd (hclean ▸ hhas) h
        · refine ⟨fun _ => .inr (.inl hclean), fun _ _ => ⟨?_, fun _ => ⟨_, answer_of_error (get_missing hd (key_spelt hvalid src) hsrc), rfl⟩⟩⟩
          have hpaths : g.tenant ++ 47 :: dst.clean ≠ g.tenant ++ 47 :: src.clean := fun h =>
            hclean (cons_injective (append_cancel_left h)).symm
          have hdst : ((files.contents.insert (g.tenant ++ 47 :: dst.clean) c).erase (g.tenant ++ 47 :: src.clean)).lookup
              (g.tenant ++ 47 :: dst.clean) = some c := by
            rw [AList.lookup_erase_ne hpaths, AList.lookup_insert]
          rw [answer_of_ok (get_found hd (key_spelt hvalid dst) hdst)]
          rfl
  · obtain ⟨e, he⟩ := get_invalid hvalid src.text files.contents
    exact ⟨fun _ => .inr (.inr (.inr fun h => hvalid h.1)), fun _ hok => absurd hok (move_error htext (copy_error he))⟩

theorem allFiles_invalid (hvalid : ¬ validTenant g.tenant) (k : Bytes) (s : Contents) :
    ∃ e, d.allFiles g k s = .error e s := by
  have hprefix : ∃ e, prefixPath g k = .error e := by
    rw [prefixPath]
    split_ifs with hnone hv
    · exact ⟨_, rfl⟩
    · exact ⟨_, rfl⟩
    all_goals exact absurd (by simpa using hv) hvalid
  obtain ⟨e, he⟩ := hprefix
  exact ⟨e, by rw [Disk.allFiles, he]; rfl⟩

variable (hd : Over order d) (hvalid : validTenant g.tenant = true)
include hd hvalid

/-- The keys below a directory, as the narrower listings ask for them. -/
theorem allFiles_directory (dir : Spelling) (s : Contents) :
    d.allFiles g (asDirectory dir.text) s = .ok (listing order g s (dir.clean ++ [47])) s := by
  have h := allFiles_spelt hd hvalid dir.directory s
  rwa [Spelling.listed, if_pos (endsInSlash_directory dir)] at h

theorem answer_files (dir : Spelling) (s : Contents) :
    answer (d.files g dir.text) s =
      .ok ((listing order g s (dir.clean ++ [47])).filter fun k => 47 ∉ trimPrefix (asDirectory dir.text) k) := by
  rw [Disk.files, answer_bind, answer_of_ok (allFiles_directory hd hvalid dir s)]
  rfl

theorem answer_directories (dir : Spelling) (recursive : Bool)
    (s : Contents) : answer (d.directories' g dir.text recursive) s =
      .ok (Disk.directoryNames (asDirectory dir.text) recursive (listing order g s (dir.clean ++ [47]))) := by
  rw [Disk.directories', answer_bind, answer_of_ok (allFiles_directory hd hvalid dir s)]
  rfl

omit hd hvalid

/-- An answer of a narrower listing is one for a valid tenant. -/
theorem valid_of_answer {p : Bytes} {f : List Bytes → EStateM Err Contents α} {out : α}
    (h : answer (d.allFiles g p >>= f) s = .ok out) : validTenant g.tenant := by
  by_contra hvalid
  obtain ⟨e, he⟩ := allFiles_invalid (d := d) hvalid p s
  rw [answer_bind, answer_of_error he] at h
  cases h

theorem mem_directoryNames {dir : Bytes} {recursive : Bool} {all : List Bytes} {n : Bytes} :
    n ∈ Disk.directoryNames dir recursive all ↔ ∃ k ∈ all, ∃ m ∈ cuts recursive (trimPrefix dir k), n = dir ++ m := by
  unfold Disk.directoryNames sorted
  rw [mem_insertionSort, mem_dedup, mem_flatMap]
  refine exists_congr fun k => and_congr_right fun _ => ?_
  rw [mem_map]
  exact exists_congr fun m => and_congr_right fun _ => eq_comm

theorem nodup_directoryNames (dir : Bytes) (recursive : Bool) (all : List Bytes) :
    (Disk.directoryNames dir recursive all).Nodup := by
  unfold Disk.directoryNames sorted
  rw [(perm_insertionSort _ _).nodup_iff]
  exact nodup_dedup _

/-- Nothing is stored below the directory. -/
def Empty (g : Grant) (s : Contents) (dir : Spelling) : Prop := ∀ k, Has g s k → ¬ dir.clean ++ [47] <+: k

theorem listing_of_empty (hvalid : validTenant g.tenant) (h : Empty g s dir) :
    listing order g s (dir.clean ++ [47]) = [] := by
  refine eq_nil_iff_forall_not_mem.mpr fun k hk => ?_
  obtain ⟨hhas, hpre⟩ := (mem_listing hvalid).mp hk
  exact h k hhas hpre

theorem begins_of_eq {c name : Bytes} (h : k = c ++ 47 :: name) : c ++ [47] <+: k := ⟨name, by rw [h]; simp⟩

variable (hd : Over order d)
include hd

theorem listsFiles (s : Contents) (dir : Spelling)
    (h : asDirectory dir.text = dir.clean ++ [47] ∨ Empty g s dir) : ListsFiles d g s dir := by
  intro _ hout
  have hvalid := valid_of_answer hout
  rw [answer_files hd hvalid] at hout
  cases hout
  refine ⟨nodup_listing.filter _, fun k => ?_⟩
  rcases h with hdir | hempty
  · rw [mem_filter, mem_listing hvalid, hdir]
    constructor
    · rintro ⟨⟨hhas, name, rfl⟩, hname⟩
      rw [trimPrefix_append] at hname
      exact ⟨hhas, name, of_decide_eq_true hname, by simp⟩
    · rintro ⟨hhas, name, hname, rfl⟩
      refine ⟨⟨hhas, begins_of_eq rfl⟩, decide_eq_true ?_⟩
      rw [append_cons dir.clean 47 name, trimPrefix_append]
      exact hname
  · rw [listing_of_empty hvalid hempty, filter_nil]
    refine ⟨fun hk => absurd hk not_mem_nil, ?_⟩
    rintro ⟨hhas, name, -, heq⟩
    exact absurd (begins_of_eq heq) (hempty k hhas)

theorem listsDirectories (s : Contents) (dir : Spelling) (recursive : Bool)
    (h : asDirectory dir.text = dir.clean ++ [47] ∨ Empty g s dir) : ListsDirectories d g s dir recursive := by
  intro _ hout
  have hvalid := valid_of_answer hout
  rw [answer_directories hd hvalid] at hout
  cases hout
  refine ⟨nodup_directoryNames _ _ _, fun n => ?_⟩
  rw [mem_directoryNames]
  rcases h with hdir | hempty
  · rw [hdir]
    constructor
    · rintro ⟨k, hk, m, hm, rfl⟩
      obtain ⟨hhas, _, rfl⟩ := (mem_listing hvalid).mp hk
      rw [trimPrefix_append] at hm
      obtain ⟨a, b, rfl, rfl, ha⟩ := mem_cuts.mp hm
      exact ⟨a, ha, by simp, _, hhas, b, by simp⟩
    · rintro ⟨name, hname, rfl, k, hhas, b, rfl⟩
      refine ⟨_, (mem_listing hvalid).mpr ⟨hhas, name ++ 47 :: b, by simp⟩, name ++ [47], ?_, by simp⟩
      have hcut : dir.clean ++ 47 :: (name ++ [47]) ++ b = (dir.clean ++ [47]) ++ (name ++ 47 :: b) := by simp
      rw [hcut, trimPrefix_append]
      exact mem_cuts.mpr ⟨name, b, rfl, rfl, hname⟩
  · rw [listing_of_empty hvalid hempty]
    constructor
    · rintro ⟨k, hk, -⟩
      exact absurd hk not_mem_nil
    · rintro ⟨name, -, rfl, k, hhas, b, rfl⟩
      exact absurd ⟨name ++ 47 :: b, by simp⟩ (hempty _ hhas)

/-- Spelt otherwise, a directory with anything in it is said to hold one that is not there. -/
theorem not_listsDirectories {files : Files}
    (hdir : asDirectory dir.text ≠ dir.clean ++ [47]) (hhas : Has g files.contents k)
    (hk : dir.clean ++ [47] <+: k) : ¬ ListsDirectories d g files.contents dir false := by
  intro h
  obtain ⟨-, hmem⟩ := h _ (answer_directories hd hhas.1 dir false files.contents)
  have hslash : (47 : UInt8) ∈ k := hk.subset (by simp)
  obtain ⟨a, b, rfl, ha⟩ := eq_append_cons_of_mem hslash
  have hcut : asDirectory dir.text ++ (a ++ [47]) ∈
      Disk.directoryNames (asDirectory dir.text) false (listing order g files.contents (dir.clean ++ [47])) := by
    refine mem_directoryNames.mpr ⟨_, (mem_listing hhas.1).mpr ⟨hhas, hk⟩, a ++ [47], ?_, rfl⟩
    rw [trimPrefix, if_neg (not_begins_unclean hdir (clean_of_has hhas))]
    exact mem_cuts.mpr ⟨a, b, rfl, rfl, fun _ => ha⟩
  obtain ⟨_, -, -, _, hhas', hk'⟩ := (hmem _).mp hcut
  exact not_begins_unclean hdir (clean_of_has hhas') ((prefix_append _ _).trans hk')

/-- Deleting keys one after the other. -/
theorem deleteAll_spec (hvalid : validTenant g.tenant) (hw : g.readOnly = false) (keys : List Bytes)
    (hkeys : ∀ k ∈ keys, Clean k) (s : Contents) :
    ∃ t, d.deleteAll g keys s = .ok () t ∧ ∀ path, t.lookup path =
      if path ∈ keys.map (g.tenant ++ 47 :: ·) then none else s.lookup path := by
  induction keys generalizing s with
  | nil => exact ⟨s, rfl, fun path => by simp⟩
  | cons k keys ih =>
    have hdelete := delete_spec hd hw (key_clean hvalid (hkeys k mem_cons_self)) s
    obtain ⟨t, ht, hlookup⟩ := ih (fun k' hk' => hkeys k' (mem_cons_of_mem _ hk')) (s.erase (g.tenant ++ 47 :: k))
    refine ⟨t, by rw [Disk.deleteAll, bind_ok hdelete, ht], fun path => ?_⟩
    rw [hlookup, map_cons]
    by_cases hlater : path ∈ keys.map (g.tenant ++ 47 :: ·)
    · rw [if_pos hlater, if_pos (mem_cons_of_mem _ hlater)]
    · rw [if_neg hlater]
      by_cases hnow : path = g.tenant ++ 47 :: k
      · rw [hnow, if_pos mem_cons_self, AList.lookup_erase]
      · rw [if_neg (by simp only [mem_cons, not_or]; exact ⟨hnow, hlater⟩), AList.lookup_erase_ne hnow]

omit hd

/-- Every stored key that begins like the directory is inside it. -/
def AllInside (g : Grant) (s : Contents) (dir : Spelling) : Prop :=
  ∀ k, Has g s k → dir.clean <+: k → dir.clean ++ [47] <+: k

theorem listed_of_inside (h : dir.clean ++ [47] <+: k) : dir.listed <+: k := by
  unfold Spelling.listed
  split_ifs
  · exact h
  · exact (prefix_append _ _).trans h

theorem clean_of_listed (h : dir.listed <+: k) : dir.clean <+: k := by
  unfold Spelling.listed at h
  split_ifs at h
  · exact (prefix_append _ _).trans h
  · exact h

/-- What a directory deleted takes with it. -/
def Taken (g : Grant) (s : Contents) (dir : Spelling) (path : Bytes) : Prop :=
  ∃ k, path = g.tenant ++ 47 :: k ∧ Has g s k ∧ dir.listed <+: k

theorem deleteDirectory_spec (hd : Over order d) (hvalid : validTenant g.tenant) (hw : g.readOnly = false)
    (files : Files) (dir : Spelling) :
    ∃ t, d.deleteDirectory g dir.text files.contents = .ok () t ∧ ∀ path,
      (Taken g files.contents dir path → t.lookup path = none) ∧
      (¬ Taken g files.contents dir path → t.lookup path = files.contents.lookup path) := by
  obtain ⟨t, ht, hlookup⟩ := deleteAll_spec hd hvalid hw (listing order g files.contents dir.listed)
    (fun k hk => clean_of_has ((mem_listing hvalid).mp hk).1) files.contents
  refine ⟨t, by rw [Disk.deleteDirectory, bind_ok (allFiles_spelt hd hvalid dir files.contents), ht], fun path => ?_⟩
  have htaken : path ∈ (listing order g files.contents dir.listed).map (g.tenant ++ 47 :: ·) ↔
      Taken g files.contents dir path := by
    rw [mem_map]
    refine exists_congr fun k => ?_
    rw [mem_listing hvalid, and_comm, eq_comm]
  rw [hlookup]
  exact ⟨fun h => if_pos (htaken.mpr h), fun h => if_neg (htaken.not.mpr h)⟩

/-- A path inside the directory is that of a key inside it. -/
theorem inside_iff :
    g.tenant ++ 47 :: (dir.clean ++ [47]) <+: g.tenant ++ 47 :: k ↔ dir.clean ++ [47] <+: k := by
  have hcons (x : Bytes) : g.tenant ++ 47 :: x = (g.tenant ++ [47]) ++ x := by simp
  rw [hcons, hcons k, prefix_append_right_inj]

theorem lookup_inside (hvalid : validTenant g.tenant)
    (hpath : g.tenant ++ 47 :: (dir.clean ++ [47]) <+: path)
    (hno : ¬ ∃ k, path = g.tenant ++ 47 :: k ∧ Has g s k ∧ dir.clean ++ [47] <+: k) : s.lookup path = none := by
  refine AList.lookup_eq_none.mpr fun hmem => hno ?_
  obtain ⟨rest, rfl⟩ := hpath
  refine ⟨dir.clean ++ [47] ++ rest, by simp, ⟨hvalid, ?_⟩, prefix_append _ _⟩
  simpa using hmem

/-- **A directory is deleted and no other key**, when its spelling ends in a slash or nothing else
begins like it. -/
theorem deletesInside_iff (hd : Over order d) (files : Files) (dir : Spelling) :
    DeletesInside d g files.contents dir ↔
      endsInSlash dir.text ∨ g.readOnly ∨ AllInside g files.contents dir := by
  by_cases hvalid : validTenant g.tenant
  swap
  · refine ⟨fun _ => .inr (.inr fun k hk => absurd hk.1 hvalid), fun _ hok => absurd (valid_of_answer hok) hvalid⟩
  cases hw : g.readOnly with
  | true =>
    refine ⟨fun _ => .inr (.inl rfl), fun _ hok path => ?_⟩
    -- nothing was listed, or the first key would have been refused
    have hlist := allFiles_spelt hd hvalid dir files.contents
    have hnil : listing order g files.contents dir.listed = [] := by
      cases hl : listing order g files.contents dir.listed with
      | nil => rfl
      | cons k =>
        rw [hl] at hlist
        have hall : d.deleteDirectory g dir.text files.contents = .error .readOnly files.contents := by
          rw [Disk.deleteDirectory, bind_ok hlist, Disk.deleteAll, bind_error (delete_readOnly hw k _)]
        rw [answer_of_error hall] at hok
        cases hok
    have hdelete : d.deleteDirectory g dir.text files.contents = .ok () files.contents := by
      rw [hnil] at hlist
      rw [Disk.deleteDirectory, bind_ok hlist]
      rfl
    rw [after_of_ok hdelete]
    split_ifs with hpath
    · refine lookup_inside hvalid hpath ?_
      rintro ⟨k, -, hhas, hpre⟩
      have hmem : k ∈ listing order g files.contents dir.listed :=
        (mem_listing hvalid).mpr ⟨hhas, listed_of_inside hpre⟩
      rw [hnil] at hmem
      exact absurd hmem not_mem_nil
    · rfl
  | false =>
    obtain ⟨t, ht, hlookup⟩ := deleteDirectory_spec hd hvalid hw files dir
    unfold DeletesInside
    rw [answer_of_ok ht, after_of_ok ht]
    constructor
    · intro h
      by_cases hslash : endsInSlash dir.text
      · exact .inl hslash
      · refine .inr (.inr fun k hhas hpre => ?_)
        by_contra hout
        have heq := h rfl (g.tenant ++ 47 :: k)
        rw [(hlookup _).1 ⟨k, rfl, hhas, by rwa [Spelling.listed, if_neg hslash]⟩, if_neg (inside_iff.not.mpr hout)] at heq
        exact AList.lookup_eq_none.mp heq.symm hhas.2
    · intro h _ path
      have hsame (k : Bytes) (hhas : Has g files.contents k) : dir.listed <+: k ↔ dir.clean ++ [47] <+: k := by
        refine ⟨fun hpre => ?_, listed_of_inside⟩
        rcases h with h | h | h
        · rwa [Spelling.listed, if_pos h] at hpre
        · cases h
        · exact h k hhas (clean_of_listed hpre)
      by_cases hpath : g.tenant ++ 47 :: (dir.clean ++ [47]) <+: path
      · rw [if_pos hpath]
        by_cases htaken : Taken g files.contents dir path
        · exact (hlookup path).1 htaken
        · rw [(hlookup path).2 htaken]
          exact lookup_inside hvalid hpath fun ⟨k, heq, hhas, hpre⟩ => htaken ⟨k, heq, hhas, (hsame k hhas).mpr hpre⟩
      · rw [if_neg hpath, (hlookup path).2]
        rintro ⟨k, rfl, hhas, hpre⟩
        exact hpath (inside_iff.mpr ((hsame k hhas).mp hpre))

/-! ### The laws together -/

/-- Everything a caller expects of one disk, for two spellings of a key, a move and a directory. -/
def Lawful (d : Disk Contents) (g : Grant) (s : Contents) (a b src dst dir : Spelling) : Prop :=
  NamesOne d g s a b ∧ MovesFile d g s src dst ∧ ListsFiles d g s dir ∧ ListsDirectories d g s dir false ∧
    ListsDirectories d g s dir true ∧ DeletesInside d g s dir

/-- **The laws hold exactly when** the two spellings give one type, a move is not between two
spellings of one stored key, the directory is spelt clean or holds nothing, and what begins like it is inside it or its spelling ends
in a slash. -/
theorem laws_iff (order : Order) (name : String) (types : Bytes → Bytes) (g : Grant) (files : Files)
    (a b src dst dir : Spelling) :
    Lawful { name, adapter := mapAdapter order, typeByExtension := types } g files.contents a b src dst dir ↔
      (a.clean ≠ b.clean ∨ g.readOnly ∨ validTenant g.tenant = false ∨ typeOf types a.text = typeOf types b.text) ∧
      (src.text = dst.text ∨ src.clean ≠ dst.clean ∨ g.readOnly ∨ ¬ Has g files.contents src.clean) ∧
      (asDirectory dir.text = dir.clean ++ [47] ∨ Empty g files.contents dir) ∧
      (endsInSlash dir.text ∨ g.readOnly ∨ AllInside g files.contents dir) := by
  have hd : Over order { name, adapter := mapAdapter order, typeByExtension := types } := rfl
  constructor
  · rintro ⟨hnames, hmove, -, hdirectories, -, hdelete⟩
    refine ⟨(namesOne_iff hd _ a b).mp hnames, (movesFile_iff hd files src dst).mp hmove, ?_, (deletesInside_iff hd files dir).mp hdelete⟩
    by_cases hdir : asDirectory dir.text = dir.clean ++ [47]
    · exact .inl hdir
    · exact .inr fun k hhas hk => not_listsDirectories hd hdir hhas hk hdirectories
  · rintro ⟨hnames, hmove, hlist, hdelete⟩
    exact ⟨(namesOne_iff hd _ a b).mpr hnames, (movesFile_iff hd files src dst).mpr hmove, listsFiles hd _ dir hlist,
      listsDirectories hd _ dir false hlist, listsDirectories hd _ dir true hlist,
      (deletesInside_iff hd files dir).mpr hdelete⟩

/-! ### Files that are stored -/

/-- **What is stored through a disk stays so**, over any calls. -/
theorem leaves_files (hd : Over order d) (g : Grant) (calls : List Call) (files : Files) :
    ∃ files' : Files, files'.contents = d.leaves g calls files.contents := by
  have hkeeps : Keeps d g fun s t => s = t ∧ ∃ files : Files, files.contents = s := by
    intro hvalid
    rw [hd]
    have hread {α : Type} {x : EStateM Err Contents α} (h : ∀ s, after x s = s) :
        Steady (fun s t => s = t ∧ ∃ files : Files, files.contents = s) x := by
      refine coupled_of_eq ?_
      rintro s t ⟨rfl, hfiles⟩
      exact ⟨⟨rfl, by rwa [h]⟩, rfl⟩
    refine ⟨fun path hpath body type htype => ?_, fun path _ => hread fun _ => after_given _ _,
      fun path _ => hread fun _ => after_given _ _, fun path _ => hread fun _ => rfl,
      fun path hpath => ?_, fun path _ => hread fun _ => rfl⟩
    · refine coupled_of_eq ?_
      rintro s - ⟨rfl, files, rfl⟩
      refine ⟨⟨rfl, ⟨files.contents.insert path ⟨body, type⟩, fun p c hc => ?_⟩, rfl⟩, rfl⟩
      by_cases hp : p = path
      · rw [hp, AList.lookup_insert] at hc
        cases hc
        exact ⟨⟨_, hvalid, hp ▸ hpath⟩, htype⟩
      · rw [AList.lookup_insert_ne hp] at hc
        exact files.stored p c hc
    · refine coupled_of_eq ?_
      rintro s - ⟨rfl, files, rfl⟩
      refine ⟨⟨rfl, ⟨files.contents.erase path, fun p c hc => ?_⟩, rfl⟩, rfl⟩
      by_cases hp : p = path
      · rw [hp, AList.lookup_erase] at hc
        cases hc
      · rw [AList.lookup_erase_ne hp] at hc
        exact files.stored p c hc
  exact (Disk.answers_related hkeeps calls ⟨rfl, files, rfl⟩).2.2

/-- `text/plain` -/
def textPlain : Bytes := Text.ascii "text/plain".toList

/-- A disk that knows the type of `.txt`, a tenant, and its files `a`, `ab` and `d/x`. -/
def plainDisk : Disk Contents where
  name := "files"
  adapter := mapAdapter ⟨id, fun _ => .refl _⟩
  typeByExtension e := if e = Text.ascii ".txt".toList then textPlain else []

def tenantT : Grant := { tenant := [116], readOnly := false }

def threeFiles : Contents :=
  plainDisk.leaves tenantT [.put [97] [1] [], .put [97, 98] [2] [], .put [100, 47, 120] [3] []] noFiles.contents

/-- Put as `a.txt/` a file gets another type than as `a.txt`.  Moved to `./a`, the file `a` is gone;
`./d` holds no file and a directory that is not there; and deleting the directory `a` removes the files
`a` and `ab`. -/
theorem spelt_twice :
    (after (plainDisk.put tenantT (Text.ascii "a.txt".toList) [1] []) ∅).lookup (Text.ascii "t/a.txt".toList) =
      some ⟨[1], textPlain⟩ ∧
    (after (plainDisk.put tenantT (Text.ascii "a.txt/".toList) [1] []) ∅).lookup (Text.ascii "t/a.txt".toList) =
      some ⟨[1], octetStream⟩ ∧
    (answer (plainDisk.move tenantT [97] [46, 47, 97]) threeFiles).toOption = some () ∧
    (answer (plainDisk.exists' tenantT [46, 47, 97]) (after (plainDisk.move tenantT [97] [46, 47, 97]) threeFiles)).toOption =
      some false ∧
    (answer (plainDisk.files tenantT [46, 47, 100]) threeFiles).toOption = some [] ∧
    (answer (plainDisk.directories tenantT [46, 47, 100]) threeFiles).toOption = some [[46, 47, 100, 47, 100, 47]] ∧
    (answer (plainDisk.allFiles tenantT []) (after (plainDisk.deleteDirectory tenantT [97]) threeFiles)).toOption =
      some [[100, 47, 120]] := by
  decide +kernel

end Hesape.Filesystem
