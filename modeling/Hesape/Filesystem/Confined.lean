import Hesape.Filesystem.Local

/-!
# A Grant reaches its own tenant's files

Everything a disk asks of its driver is asked of a path made by `key` or `prefixPath`, so whatever
relation between two states the driver keeps on paths of one tenant, a whole sequence of calls with
that tenant's `Grant` keeps (`answers_related`).  Three relations are read off it.  With a driver
that writes down what it is handed: every path is the tenant's own.  With a driver that takes paths
for opaque names, and with the local one: two states that differ in another tenant's files only
give the same answers, and those files stay as they were.
-/

namespace Hesape.Filesystem

open Hesape.Run
open Hesape.Text (Bytes)
open Hesape.Text.Path
open Function
open List

variable {S : Type} {R : S → S → Prop}

/-! ### What a driver keeps, a disk keeps -/

/-- On the tenant's own paths the driver answers alike in related states and leaves related ones.  A
disk never puts a file without a type. -/
structure Respects (a : Adapter S) (tenant : Bytes) (R : S → S → Prop) : Prop where
  put : ∀ path, Named tenant path → ∀ body contentType, contentType ≠ [] → Steady R (a.put path body contentType)
  get : ∀ path, Named tenant path → Steady R (a.get path)
  stat : ∀ path, Named tenant path → Steady R (a.stat path)
  exists' : ∀ path, Named tenant path → Steady R (a.exists' path)
  delete : ∀ path, Named tenant path → Steady R (a.delete path)
  list : ∀ path, Listed tenant path → Steady R (a.list path)

/-- One that may only be asked for a valid tenant. -/
def Keeps (d : Disk S) (g : Grant) (R : S → S → Prop) : Prop :=
  validTenant g.tenant = true → Respects d.adapter g.tenant R

section Rules

variable {α β : Type} {F : Err → Err → Prop} {Q : β → β → Prop}

theorem coupled_given (hF : ∀ e, F e e) {x : Except Err α} {f f' : α → EStateM Err S β}
    (h : ∀ a, x = .ok a → Coupled F R Q (f a) (f' a)) : Coupled F R Q (given x >>= f) (given x >>= f') := by
  cases x with
  | ok a => exact h a rfl
  | error e => exact fun _ _ hR => ⟨hR, hF e⟩

theorem coupled_bind {x x' : EStateM Err S α} {f f' : α → EStateM Err S β} (hx : Coupled F R Eq x x')
    (hf : ∀ a, Coupled F R Q (f a) (f' a)) : Coupled F R Q (x >>= f) (x' >>= f') := by
  refine hx.bind ?_
  rintro a - rfl
  exact hf a

end Rules

variable {α : Type}

theorem coupled_pure (a : α) : Steady R (pure a : EStateM Err S α) := Coupled.pure rfl

/-- Two spellings of a key that lead to one path and one type, and to errors that are `F`-related. -/
structure Spelt (d : Disk S) (g : Grant) (F : Err → Err → Prop) (a b : Bytes) : Prop where
  key : key g a = key g b
  type : g.readOnly = false → validTenant g.tenant = true →
    typeOf d.typeByExtension a = typeOf d.typeByExtension b
  refl : ∀ e, F e e
  wrapped : ∀ op e, F (.wrapped op a d.name e) (.wrapped op b d.name e)
  isNotFound : ∀ e e', F e e' → e.isNotFound = e'.isNotFound

namespace Disk

variable {d : Disk S} {g : Grant} {F : Err → Err → Prop} {a b src src' dst dst' : Bytes}

theorem spelt_self (k : Bytes) : Spelt d g Eq k k :=
  ⟨rfl, fun _ _ => rfl, fun _ => rfl, fun _ _ => rfl, fun _ _ => congrArg _⟩

theorem coupled_wrap {x : EStateM Err S α} (hx : Steady R x) {op : String}
    (hF : ∀ e, F (.wrapped op a d.name e) (.wrapped op b d.name e)) :
    Coupled F R Eq (d.wrap op a x) (d.wrap op b x) := by
  refine hx.attempt.bind ?_
  rintro (e | x) (e' | y) ⟨⟩
  · exact Coupled.throw (hF e)
  · exact Coupled.pure rfl

variable (h : Keeps d g R)
include h

theorem coupled_allFiles (directory : Bytes) : Steady R (d.allFiles g directory) := by
  refine coupled_given (fun _ => rfl) fun path hpath => coupled_bind (coupled_wrap ?_ fun _ => rfl) fun _ => coupled_pure _
  obtain ⟨hvalid, hlisted⟩ := listed_of_prefixPath hpath
  exact (h hvalid).list path hlisted

section Spelt

variable (hab : Spelt d g F a b)
include hab

theorem coupled_put (body contentType : Bytes) :
    Coupled F R Eq (d.put g a body contentType) (d.put g b body contentType) := by
  unfold put
  rw [hab.key]
  refine coupled_given hab.refl fun _ hw => coupled_given hab.refl fun path hpath => ?_
  have hw : g.readOnly = false := by
    by_contra hw'
    rw [writable, if_pos (by simpa using hw')] at hw
    cases hw
  obtain ⟨hvalid, hnamed⟩ := named_of_key hpath
  rw [hab.type hw hvalid]
  refine coupled_wrap ((h hvalid).put path hnamed body _ ?_) (hab.wrapped _)
  split_ifs with htype
  · exact typeOf_ne_nil _ _
  · exact htype

theorem coupled_get : Coupled F R (fun f f' => ∃ file : File, f = { file with key := a } ∧ f' = { file with key := b })
    (d.get g a) (d.get g b) := by
  unfold get
  rw [hab.key]
  refine coupled_given hab.refl fun path hpath => coupled_bind (coupled_wrap ?_ (hab.wrapped _)) fun f => .pure ⟨f, rfl, rfl⟩
  obtain ⟨hvalid, hnamed⟩ := named_of_key hpath
  exact (h hvalid).get path hnamed

theorem coupled_stat : Coupled F R (fun i i' => ∃ info : Info, i = { info with key := a } ∧ i' = { info with key := b })
    (d.stat g a) (d.stat g b) := by
  unfold stat
  rw [hab.key]
  refine coupled_given hab.refl fun path hpath => coupled_bind (coupled_wrap ?_ (hab.wrapped _)) fun i => .pure ⟨i, rfl, rfl⟩
  obtain ⟨hvalid, hnamed⟩ := named_of_key hpath
  exact (h hvalid).stat path hnamed

theorem coupled_exists : Coupled F R Eq (d.exists' g a) (d.exists' g b) := by
  unfold exists'
  rw [hab.key]
  refine coupled_given hab.refl fun path hpath => coupled_wrap ?_ (hab.wrapped _)
  obtain ⟨hvalid, hnamed⟩ := named_of_key hpath
  exact (h hvalid).exists' path hnamed

theorem coupled_delete : Coupled F R Eq (d.delete g a) (d.delete g b) := by
  unfold delete
  rw [hab.key]
  refine coupled_given hab.refl fun _ _ => coupled_given hab.refl fun path hpath => coupled_wrap ?_ (hab.wrapped _)
  obtain ⟨hvalid, hnamed⟩ := named_of_key hpath
  exact (h hvalid).delete path hnamed

theorem coupled_join (data : Bytes) (front : Bool) :
    Coupled F R Eq (d.join g a data front) (d.join g b data front) := by
  refine (coupled_get h hab).attempt.bind ?_
  rintro (e | f) (e' | f') hr
  · dsimp only
    rw [hab.isNotFound e e' hr]
    split_ifs
    · exact coupled_put h hab data []
    · exact Coupled.throw hr
  · cases hr
  · cases hr
  · obtain ⟨f, rfl, rfl⟩ := hr
    exact coupled_put h hab _ _

end Spelt

variable (hsrc : Spelt d g F src src') (hdst : Spelt d g F dst dst')
include hsrc hdst

theorem coupled_copy : Coupled F R Eq (d.copy g src dst) (d.copy g src' dst') := by
  refine (coupled_get h hsrc).bind ?_
  rintro _ _ ⟨f, rfl, rfl⟩
  exact coupled_put h hdst f.body f.contentType

theorem coupled_move (hsame : src = dst ↔ src' = dst') :
    Coupled F R Eq (d.move g src dst) (d.move g src' dst') := by
  unfold move
  simp only [hsame]
  split_ifs
  · exact Coupled.pure rfl
  · exact coupled_bind (coupled_copy h hsrc hdst) fun _ => coupled_delete h hsrc

omit hsrc hdst

theorem coupled_deleteAll (keys : List Bytes) : Steady R (d.deleteAll g keys) := by
  induction keys with
  | nil => exact coupled_pure ()
  | cons k _ ih => exact coupled_bind (coupled_delete h (spelt_self k)) fun _ => ih

/-- One call keeps what the driver keeps. -/
theorem coupled_call (c : Call) : Steady R (d.call g c) := by
  have hs := spelt_self (d := d) (g := g)
  cases c with
  | put k body contentType => exact coupled_bind (coupled_put h (hs k) body contentType) fun _ => coupled_pure _
  | get k =>
    refine (coupled_get h (hs k)).bind ?_
    rintro _ _ ⟨f, rfl, rfl⟩
    exact coupled_pure _
  | stat k =>
    refine (coupled_stat h (hs k)).bind ?_
    rintro _ _ ⟨i, rfl, rfl⟩
    exact coupled_pure _
  | exists' k => exact coupled_bind (coupled_exists h (hs k)) fun b => coupled_pure _
  | delete k => exact coupled_bind (coupled_delete h (hs k)) fun _ => coupled_pure _
  | copy src dst => exact coupled_bind (coupled_copy h (hs src) (hs dst)) fun _ => coupled_pure _
  | move src dst => exact coupled_bind (coupled_move h (hs src) (hs dst) Iff.rfl) fun _ => coupled_pure _
  | append k data => exact coupled_bind (coupled_join h (hs k) data false) fun _ => coupled_pure _
  | prepend k data => exact coupled_bind (coupled_join h (hs k) data true) fun _ => coupled_pure _
  | allFiles directory => exact coupled_bind (coupled_allFiles h directory) fun l => coupled_pure _
  | files | directories | allDirectories =>
    exact coupled_bind (coupled_bind (coupled_allFiles h _) fun all => coupled_pure _) fun l => coupled_pure _
  | deleteDirectory =>
    exact coupled_bind (coupled_bind (coupled_allFiles h _) fun keys => coupled_deleteAll h keys) fun _ => coupled_pure _

/-- **So does a sequence of calls**: related states are answered alike and stay related. -/
theorem answers_related (calls : List Call) {s t : S} (hR : R s t) :
    d.answers g calls s = d.answers g calls t ∧ R (d.leaves g calls s) (d.leaves g calls t) := by
  induction calls generalizing s t with
  | nil => exact ⟨rfl, hR⟩
  | cons c _ ih =>
    have hcall := coupled_call h c
    obtain ⟨hrest, hend⟩ := ih (hcall s t hR).1
    refine ⟨?_, hend⟩
    rw [answers, answers, hcall.answer_eq hR, hrest]

end Disk

/-! ### What a driver is handed -/

/-- What a driver is handed: the path of a file, or the prefix of a listing. -/
inductive Handed
  | path (p : Bytes)
  | listing (p : Bytes)

def Handed.text : Handed → Bytes
  | path p => p
  | listing p => p

/-- The tenant's name, a slash and a clean path; to list, also everything, or a slash after it. -/
def Handed.Own (tenant : Bytes) : Handed → Prop
  | path p => Named tenant p
  | listing p => Listed tenant p

variable {tenant : Bytes}

theorem Handed.Own.listed {x : Handed} (h : x.Own tenant) : Listed tenant x.text := by
  cases x with
  | path => exact .inr (.inl h)
  | listing => exact h

/-- Written down before it is done. -/
def record {α : Type} (x : Handed) (op : EStateM Err S α) : EStateM Err (S × List Handed) α := fun s =>
  match op s.1 with
  | .ok a t => .ok a (t, x :: s.2)
  | .error e t => .error e (t, x :: s.2)

/-- The driver, writing down what it is handed. -/
def Adapter.traced (a : Adapter S) : Adapter (S × List Handed) where
  put p body contentType := record (.path p) (a.put p body contentType)
  get p := record (.path p) (a.get p)
  stat p := record (.path p) (a.stat p)
  exists' p := record (.path p) (a.exists' p)
  delete p := record (.path p) (a.delete p)
  list p := record (.listing p) (a.list p)

def Disk.traced (d : Disk S) : Disk (S × List Handed) where
  name := d.name
  adapter := d.adapter.traced
  typeByExtension := d.typeByExtension

/-- One run, everything handed over so far being the tenant's own. -/
def AllOwn (tenant : Bytes) (s t : S × List Handed) : Prop :=
  s = t ∧ ∀ x ∈ s.2, validTenant tenant = true ∧ x.Own tenant

theorem coupled_record (hvalid : validTenant tenant) (x : Handed)
    (hx : x.Own tenant) (op : EStateM Err S α) : Steady (AllOwn tenant) (record x op) := by
  refine coupled_of_eq ?_
  rintro s t ⟨rfl, hown⟩
  refine ⟨⟨rfl, ?_⟩, rfl⟩
  intro y hy
  have htrace : (after (record x op) s).2 = x :: s.2 := by
    unfold Run.after record
    cases op s.1 <;> rfl
  rw [htrace] at hy
  rcases mem_cons.mp hy with rfl | hy
  · exact ⟨hvalid, hx⟩
  · exact hown y hy

theorem respects_traced (a : Adapter S) (hvalid : validTenant tenant) :
    Respects a.traced tenant (AllOwn tenant) where
  put p h _ _ _ := coupled_record hvalid (.path p) h _
  get p h := coupled_record hvalid (.path p) h _
  stat p h := coupled_record hvalid (.path p) h _
  exists' p h := coupled_record hvalid (.path p) h _
  delete p h := coupled_record hvalid (.path p) h _
  list p h := coupled_record hvalid (.listing p) h _

/-- Everything a sequence of calls hands the driver is the tenant's own. -/
theorem handed_own (d : Disk S) (g : Grant) (calls : List Call) (s : S) :
    ∀ x ∈ (d.traced.leaves g calls (s, [])).2, validTenant g.tenant ∧ x.Own g.tenant := by
  have hkeeps : Keeps d.traced g (AllOwn g.tenant) := respects_traced d.adapter
  exact (Disk.answers_related hkeeps calls ⟨rfl, fun x hx => absurd hx not_mem_nil⟩).2.2

/-! ### Opaque names -/

/-- A driver to which a stored path is a name and nothing more: an operation on a name answers and
does something to what stands under that name, whatever that is, and a listing answers by the names
that begin with its prefix. -/
structure Opaque (E : Type) where
  put : Bytes → Bytes → Bytes → Option E → Except Err Unit × Option E
  get : Bytes → Option E → Except Err File × Option E
  stat : Bytes → Option E → Except Err Info × Option E
  exists' : Bytes → Option E → Except Err Bool × Option E
  delete : Bytes → Option E → Except Err Unit × Option E
  list : Bytes → (Bytes → Option E) → Except Err (List Bytes)

variable {E : Type}

def onName {α : Type} (op : Option E → Except Err α × Option E) (name : Bytes) : EStateM Err (Bytes → Option E) α :=
  fun s =>
    match (op (s name)).1 with
    | .ok a => .ok a (Function.update s name (op (s name)).2)
    | .error e => .error e (Function.update s name (op (s name)).2)

/-- What stands under the names that begin with a prefix. -/
def beginning (prefix' : Bytes) (s : Bytes → Option E) : Bytes → Option E :=
  fun name => if prefix' <+: name then s name else none

def Opaque.adapter (o : Opaque E) : Adapter (Bytes → Option E) where
  put name body contentType := onName (o.put name body contentType) name
  get name := onName (o.get name) name
  stat name := onName (o.stat name) name
  exists' name := onName (o.exists' name) name
  delete name := onName (o.delete name) name
  list prefix' := fun s => given (o.list prefix' (beginning prefix' s)) s

/-- The path is that of a file of the tenant's. -/
def Belongs (tenant path : Bytes) : Prop := validTenant tenant = true ∧ tenant ++ [47] <+: path

/-- Two names begin a path only if they are one. -/
theorem tenant_unique {a b path : Bytes} (ha : (47 : UInt8) ∉ a) (hb : (47 : UInt8) ∉ b) (hpa : a ++ [47] <+: path)
    (hpb : b ++ [47] <+: path) : a = b := by
  obtain ⟨ra, rfl⟩ := hpa
  obtain ⟨rb, hrb⟩ := hpb
  rw [append_assoc, append_assoc] at hrb
  have htake (x rest : Bytes) (hx : (47 : UInt8) ∉ x) : (x ++ ([47] ++ rest)).takeWhile (· ≠ 47) = x := by
    rw [takeWhile_append_of_pos fun c hc => by simpa using fun h : c = 47 => hx (h ▸ hc)]
    simp
  rw [← htake a ra ha, ← hrb, htake b rb hb]

theorem not_belongs {tenant other path : Bytes} (hvalid : validTenant tenant) (hne : tenant ≠ other)
    (hpath : tenant ++ [47] <+: path) : ¬ Belongs other path := by
  rintro ⟨hother, hpre⟩
  exact hne (tenant_unique (proper_of_validTenant hvalid).1.2.1 (proper_of_validTenant hother).1.2.1 hpath hpre)

/-- Two states that differ in the other tenant's files only, and those as they were in `s₀` and `t₀`. -/
def ApartFrom (other : Bytes) (s₀ t₀ s t : Bytes → Option E) : Prop :=
  (∀ path, ¬ Belongs other path → s path = t path) ∧
    ∀ path, Belongs other path → s path = s₀ path ∧ t path = t₀ path

theorem coupled_onName {other name : Bytes} (hname : ¬ Belongs other name) (s₀ t₀ : Bytes → Option E)
    (op : Option E → Except Err α × Option E) : Steady (ApartFrom other s₀ t₀) (onName op name) := by
  have hafter (s : Bytes → Option E) : after (onName op name) s = update s name (op (s name)).2 := by
    unfold Run.after onName
    cases (op (s name)).1 <;> rfl
  have hanswer (s : Bytes → Option E) : answer (onName op name) s = (op (s name)).1 := by
    unfold answer onName
    cases (op (s name)).1 <;> rfl
  refine coupled_of_eq fun s t h => ?_
  obtain ⟨hsame, hkept⟩ := h
  rw [hafter, hafter, hanswer, hanswer, hsame name hname]
  refine ⟨⟨fun path hpath => ?_, fun path hpath => ?_⟩, rfl⟩
  · by_cases heq : path = name
    · rw [heq, update_self, update_self]
    · rw [update_of_ne heq, update_of_ne heq, hsame path hpath]
  · have heq : path ≠ name := fun heq => hname (heq ▸ hpath)
    rw [update_of_ne heq, update_of_ne heq]
    exact hkept path hpath

theorem respects_opaque (o : Opaque E) {tenant other : Bytes} (hvalid : validTenant tenant) (hne : tenant ≠ other)
    (s₀ t₀ : Bytes → Option E) : Respects o.adapter tenant (ApartFrom other s₀ t₀) where
  put _ h _ _ _ := coupled_onName (not_belongs hvalid hne h.begins) s₀ t₀ _
  get _ h := coupled_onName (not_belongs hvalid hne h.begins) s₀ t₀ _
  stat _ h := coupled_onName (not_belongs hvalid hne h.begins) s₀ t₀ _
  exists' _ h := coupled_onName (not_belongs hvalid hne h.begins) s₀ t₀ _
  delete _ h := coupled_onName (not_belongs hvalid hne h.begins) s₀ t₀ _
  list prefix' h := by
    refine coupled_of_eq fun s t hst => ?_
    -- every name listed begins with the tenant's, so none is the other's
    have hbegin : beginning prefix' s = beginning prefix' t := by
      funext name
      unfold beginning
      split_ifs with hpre
      · exact hst.1 name (not_belongs hvalid hne (h.begins.trans hpre))
      · rfl
    have hafter (u : Bytes → Option E) : after (o.adapter.list prefix') u = u :=
      after_given (o.list prefix' (beginning prefix' u)) u
    have hanswer (u : Bytes → Option E) : answer (o.adapter.list prefix') u = o.list prefix' (beginning prefix' u) :=
      answer_given (o.list prefix' (beginning prefix' u)) u
    rw [hafter, hafter, hanswer, hanswer, hbegin]
    exact ⟨hst, rfl⟩

/-! ### The local driver -/

namespace Local

/-- Two trees that differ under the other tenant's name only, where they are as in `s₀` and `t₀`. -/
def ApartFrom (other : Bytes) (s₀ t₀ s t : Entries) : Prop :=
  (∀ name, name ≠ other → s.lookup name = t.lookup name) ∧
    s.lookup other = s₀.lookup other ∧ t.lookup other = t₀.lookup other

variable {other : Bytes} {s₀ t₀ : Entries}

theorem coupled_look {first : Bytes} (hne : first ≠ other) (rest : List Bytes) :
    Steady (ApartFrom other s₀ t₀) (look (first :: rest)) := by
  refine coupled_of_eq fun s t h => ⟨h, ?_⟩
  show Except.ok (find (first :: rest) (.dir s)) = Except.ok (find (first :: rest) (.dir t))
  rw [find, find, h.1 first hne]

theorem coupled_edit {α : Type} {first : Bytes} (hne : first ≠ other) (rest : List Bytes)
    (f : List Bytes → Option Node → Except Fault α × Option Node) :
    Steady (ApartFrom other s₀ t₀) (edit f (first :: rest)) := by
  refine coupled_of_eq fun s t h => ?_
  obtain ⟨hsame, hs, ht⟩ := h
  show ApartFrom other s₀ t₀ (s.assign first (f rest (s.lookup first)).2) (t.assign first (f rest (t.lookup first)).2) ∧
    Except.ok (f rest (s.lookup first)).1 = Except.ok (f rest (t.lookup first)).1
  rw [hsame first hne]
  refine ⟨⟨fun name hname => ?_, ?_, ?_⟩, rfl⟩
  · by_cases heq : name = first
    · rw [heq, Entries.lookup_assign_self, Entries.lookup_assign_self]
    · rw [Entries.lookup_assign_of_ne heq, Entries.lookup_assign_of_ne heq, hsame name hname]
  · rw [Entries.lookup_assign_of_ne (Ne.symm hne), hs]
  · rw [Entries.lookup_assign_of_ne (Ne.symm hne), ht]

variable {tenant path : Bytes}

/-- A path of the tenant's own is its name and proper parts, a slash after them or not. -/
theorem parts_of_listed (hvalid : validTenant tenant) (h : Listed tenant path) :
    ∃ l, (∀ part ∈ tenant :: l, Proper part) ∧ (0 : UInt8) ∉ path ∧
      (path.splitOn 47 = tenant :: l ∨ path.splitOn 47 = (tenant :: l) ++ [[]]) := by
  obtain ⟨htenant, hnul⟩ := proper_of_validTenant hvalid
  have hname : tenant.splitOn 47 = [tenant] := splitOn_eq_singleton htenant.2.1
  rcases h with rfl | ⟨c, ⟨⟨l, hl, hproper, rfl⟩, hc⟩, rfl⟩ | ⟨c, ⟨⟨l, hl, hproper, rfl⟩, hc⟩, rfl⟩
  · refine ⟨[], by simpa using htenant, by simpa using hnul, .inr ?_⟩
    rw [splitOn_append_cons_self, hname]
    rfl
  · refine ⟨l, by simpa using ⟨htenant, hproper⟩, by simpa using ⟨hnul, hc⟩, .inl ?_⟩
    rw [splitOn_append_cons_self, hname, splitOn_join hl hproper]
    rfl
  · refine ⟨l, by simpa using ⟨htenant, hproper⟩, by simpa using ⟨hnul, hc⟩, .inr ?_⟩
    rw [splitOn_append_cons_self, hname, splitOn_append_cons_self, splitOn_join hl hproper]
    rfl

variable {tenant path name : Bytes} {root : Root}

/-- **It stays under the root**, and below the tenant's own directory there. -/
theorem resolve_of_listed (hvalid : validTenant tenant) (h : Listed tenant path) (hname : resolve root path = .ok name) :
    full root path = root.text ++ 47 :: name ∧ ∃ l, (∀ part ∈ tenant :: l, Proper part) ∧ name = join (tenant :: l) := by
  obtain ⟨l, hproper, hnul, hsplit⟩ := parts_of_listed hvalid h
  rw [resolve_of_proper (cons_ne_nil _ _) hproper hnul hsplit] at hname
  split_ifs at hname with hroot
  cases hname
  refine ⟨?_, l, hproper, rfl⟩
  rw [full_of_proper hproper hsplit, join_append hroot (cons_ne_nil _ _)]
  rfl

/-- A listing starts in a directory of the tenant's own. -/
theorem listed_dirOf (h : Listed tenant path) : Listed tenant (dirOf path) := by
  rcases h with rfl | ⟨c, hc, rfl⟩ | ⟨c, hc, rfl⟩
  · rw [dirOf, if_pos (by simp [endsInSlash])]
    exact .inl rfl
  · obtain ⟨⟨l, hl, hproper, rfl⟩, hnul⟩ := hc
    have hslash : endsInSlash (tenant ++ 47 :: join l) = false := by
      obtain ⟨b, _, hb⟩ := exists_cons_of_ne_nil (join_ne_nil hl hproper)
      have hlast := getLast_join hproper
      rw [hb] at hlast ⊢
      simpa [endsInSlash, List.getLast?_append, List.getLast?_cons_cons] using hlast
    -- what stands after the last slash is dropped
    have hdrop (before last : Bytes) (hlast : (47 : UInt8) ∉ last) :
        ((before ++ 47 :: last).reverse.dropWhile (· ≠ 47)).reverse = before ++ [47] := by
      have hreverse : (before ++ 47 :: last).reverse = last.reverse ++ 47 :: before.reverse := by simp
      rw [hreverse, dropWhile_append_of_pos]
      · simp
      · intro c hc
        simpa using fun heq : c = 47 => hlast (heq ▸ mem_reverse.mp hc)
    obtain ⟨init, last, rfl⟩ : ∃ init last, l = init ++ [last] := ⟨l.dropLast, l.getLast hl, (dropLast_append_getLast hl).symm⟩
    have hlast := (hproper last (by simp)).2.1
    have hinit : ∀ part ∈ init, Proper part := fun part hp => hproper part (mem_append_left _ hp)
    rw [dirOf, if_neg (by rw [hslash]; exact Bool.false_ne_true)]
    by_cases hempty : init = []
    · subst hempty
      rw [nil_append, join_singleton, hdrop _ _ hlast]
      exact .inl rfl
    · have hjoin : join (init ++ [last]) = join init ++ 47 :: last := by
        rw [join_append hempty (cons_ne_nil _ _), join_singleton]
      rw [hjoin] at hnul ⊢
      have hassoc : tenant ++ 47 :: (join init ++ 47 :: last) = (tenant ++ 47 :: join init) ++ 47 :: last := by simp
      rw [hassoc, hdrop _ _ hlast]
      refine .inr (.inr ⟨join init, ⟨⟨init, hempty, hinit, rfl⟩, ?_⟩, by simp⟩)
      exact fun hm => hnul (mem_append_left _ hm)
  · rw [dirOf, if_pos (by simp [endsInSlash, List.getLast?_append, List.getLast?_cons])]
    exact .inr (.inr ⟨c, hc, rfl⟩)

theorem partsOf_of_listed (hvalid : validTenant tenant) (h : Listed tenant path) (hname : resolve root path = .ok name) : ∃ l, partsOf name = tenant :: l := by
  obtain ⟨-, l, hproper, rfl⟩ := resolve_of_listed hvalid h hname
  exact ⟨l, partsOf_join (cons_ne_nil _ _) hproper⟩

theorem partsOf_of_named (hvalid : validTenant tenant) (h : Named tenant path) (hname : file root path = .ok name) : ∃ l, partsOf name = tenant :: l := by
  unfold file at hname
  cases hr : resolve root path with
  | error =>
    rw [hr] at hname
    cases hname
  | ok resolved =>
    rw [hr] at hname
    have hsame : resolved = name := by
      by_cases hdot : resolved = [46]
      · rw [hdot] at hname
        cases hname
      · have : (Except.ok resolved : Except Err Bytes) = .ok name := by
          rw [← hname]
          exact (if_neg hdot).symm
        exact Except.ok.inj this
    exact partsOf_of_listed hvalid (.inr (.inl h)) (hsame ▸ hr)

variable {tenant : Bytes} (root : Root) (typeByExtension : Bytes → Bytes)

variable (hvalid : validTenant tenant = true) (hne : tenant ≠ other)
include hvalid hne

/-- What is found under an own path, whatever is done with it then. -/
theorem coupled_found {path : Bytes} (h : Named tenant path)
    {α : Type} {f : Except Fault Node → EStateM Err Entries α}
    (hf : ∀ r, Steady (ApartFrom other s₀ t₀) (f r)) :
    Steady (ApartFrom other s₀ t₀) (given (file root path) >>= fun name => look (partsOf name) >>= f) := by
  refine coupled_given (fun _ => rfl) fun name hname => ?_
  obtain ⟨l, hparts⟩ := partsOf_of_named hvalid h hname
  rw [hparts]
  exact coupled_bind (coupled_look hne l) hf

theorem coupled_stat {path : Bytes} (h : Named tenant path) :
    Steady (ApartFrom other s₀ t₀) (stat root typeByExtension path) := by
  refine coupled_found root hvalid hne h fun r => ?_
  rcases r with fault | node
  · cases fault <;> exact Coupled.throw rfl
  · cases node with
    | file => exact coupled_pure _
    | dir => exact Coupled.throw rfl

theorem respects_local (s₀ t₀ : Entries) :
    Respects (adapter root typeByExtension) tenant (ApartFrom other s₀ t₀) where
  put path h body contentType _ := by
    refine coupled_given (fun _ => rfl) fun name hname => ?_
    obtain ⟨l, hparts⟩ := partsOf_of_named hvalid h hname
    rw [hparts]
    have hreported (doing : String) (r : Except Fault Unit) :
        Steady (ApartFrom other s₀ t₀) (reported doing path r) := by
      cases r with
      | error => exact Coupled.throw rfl
      | ok => exact coupled_pure _
    have hwrite : Steady (ApartFrom other s₀ t₀)
        (edit (descend (replace body)) (tenant :: l) >>= reported "writing" path) :=
      coupled_bind (coupled_edit hne l _) (hreported "writing")
    dsimp only
    split_ifs with hdir
    · cases hd : (tenant :: l).dropLast with
      | nil => exact absurd hd hdir
      | cons first rest =>
        have hfirst : first = tenant := by
          cases l with
          | nil => cases hd
          | cons =>
            cases hd
            rfl
        subst hfirst
        exact coupled_bind (coupled_edit hne rest _) fun r => coupled_bind (hreported _ r) fun _ => hwrite
    · exact hwrite
  get path h := by
    refine coupled_bind (coupled_stat root typeByExtension hvalid hne h) fun info => ?_
    refine coupled_found root hvalid hne h fun r => ?_
    rcases r with fault | node
    · cases fault <;> exact Coupled.throw rfl
    · cases node with
      | file => exact coupled_pure _
      | dir => exact Coupled.throw rfl
  stat path h := coupled_stat root typeByExtension hvalid hne h
  exists' path h := by
    refine coupled_found root hvalid hne h fun r => ?_
    rcases r with fault | node
    · cases fault with
      | notExist => exact coupled_pure _
      | notDir | isDir | notEmpty | invalid => exact Coupled.throw rfl
    · cases node <;> exact coupled_pure _
  delete path h := by
    refine coupled_given (fun _ => rfl) fun name hname => ?_
    obtain ⟨l, hparts⟩ := partsOf_of_named hvalid h hname
    rw [hparts]
    refine coupled_bind (coupled_edit hne l _) fun r => ?_
    rcases r with fault | u
    · cases fault with
      | notExist => exact coupled_pure _
      | notDir | isDir | notEmpty | invalid => exact Coupled.throw rfl
    · exact coupled_pure _
  list path h := by
    refine coupled_given (fun _ => rfl) fun start hstart => ?_
    obtain ⟨l, hparts⟩ := partsOf_of_listed hvalid (listed_dirOf h) hstart
    rw [hparts]
    split_ifs with htext
    · exact Coupled.throw rfl
    · refine coupled_bind (coupled_look hne l) fun r => ?_
      rcases r with fault | node
      · cases fault with
        | notExist => exact coupled_pure _
        | notDir | isDir | notEmpty | invalid => exact Coupled.throw rfl
      · dsimp only
        cases walk path start ((tenant :: l).getLastD [46]) node with
        | error => exact Coupled.throw rfl
        | ok => exact coupled_pure _

end Local

/-! ### Two tenants -/

/-- What the driver is handed: the tenant's name, a slash and a clean path, which resolved under any
root stays there. -/
def HandsOwn (g : Grant) (calls : List Call) : Prop :=
  ∀ (S : Type) (d : Disk S) (s : S), ∀ x ∈ (d.traced.leaves g calls (s, [])).2,
    validTenant g.tenant = true ∧ x.Own g.tenant ∧ ∀ (root : Local.Root) (name : Bytes),
      Local.resolve root x.text = .ok name → Local.full root x.text = root.text ++ 47 :: name ∧
        ∃ l, (∀ part ∈ g.tenant :: l, Proper part) ∧ name = join (g.tenant :: l)

/-- Over names taken as they are: answers that do not depend on the other tenant's files, which stay
as they were. -/
def ApartByName (g h : Grant) (calls : List Call) : Prop :=
  ∀ (E : Type) (d : Disk (Bytes → Option E)) (o : Opaque E), d.adapter = o.adapter → ∀ s t : Bytes → Option E,
    (∀ path, ¬ Belongs h.tenant path → s path = t path) →
      d.answers g calls s = d.answers g calls t ∧ ∀ path, Belongs h.tenant path → d.leaves g calls s path = s path

/-- Over a directory of the machine: the same, the other tenant's files being what stands under its
name. -/
def ApartOnDisk (g h : Grant) (calls : List Call) : Prop :=
  ∀ (root : Local.Root) (d : Disk Local.Entries) (types : Bytes → Bytes), d.adapter = Local.adapter root types →
    ∀ s t : Local.Entries, (∀ name, name ≠ h.tenant → s.lookup name = t.lookup name) →
      d.answers g calls s = d.answers g calls t ∧ (d.leaves g calls s).lookup h.tenant = s.lookup h.tenant

/-- **A Grant reaches only its own tenant's files**, whatever is called with it and however keys and
directories are spelt. -/
theorem grant_confined (g h : Grant) (hne : g.tenant ≠ h.tenant) (calls : List Call) :
    HandsOwn g calls ∧ ApartByName g h calls ∧ ApartOnDisk g h calls := by
  refine ⟨?_, ?_, ?_⟩
  · intro S d s x hx
    obtain ⟨hvalid, hown⟩ := handed_own d g calls s x hx
    exact ⟨hvalid, hown, fun root name hname => Local.resolve_of_listed hvalid hown.listed hname⟩
  · intro E d o hd s t hst
    have hkeeps : Keeps d g (ApartFrom h.tenant s t) := fun hvalid => hd ▸ respects_opaque o hvalid hne s t
    obtain ⟨hanswers, -, hkept⟩ := Disk.answers_related hkeeps calls ⟨hst, fun _ _ => ⟨rfl, rfl⟩⟩
    exact ⟨hanswers, fun path hpath => (hkept path hpath).1⟩
  · intro root d types hd s t hst
    have hkeeps : Keeps d g (Local.ApartFrom h.tenant s t) :=
      fun hvalid => hd ▸ Local.respects_local root types hvalid hne s t
    obtain ⟨hanswers, -, hkept, -⟩ := Disk.answers_related hkeeps calls ⟨hst, rfl, rfl⟩
    exact ⟨hanswers, hkept⟩

/-- One name beginning the other, and keys that climb. -/
theorem grant_confined_climbing :
    ([97, 99] : Bytes) ≠ [97] ∧
      HandsOwn ⟨[97, 99], false⟩ [.put [46, 46, 47, 97, 47, 120] [1] [], .move [47, 47, 97] [97, 47, 46, 46, 47, 98],
        .deleteDirectory []] ∧
      ApartByName ⟨[97, 99], false⟩ ⟨[97], false⟩ [.put [46, 46, 47, 97, 47, 120] [1] [],
        .move [47, 47, 97] [97, 47, 46, 46, 47, 98], .deleteDirectory []] ∧
      ApartOnDisk ⟨[97, 99], false⟩ ⟨[97], false⟩ [.put [46, 46, 47, 97, 47, 120] [1] [],
        .move [47, 47, 97] [97, 47, 46, 46, 47, 98], .deleteDirectory []] :=
  ⟨by decide, grant_confined ⟨[97, 99], false⟩ ⟨[97], false⟩ (by decide) _⟩

end Hesape.Filesystem
