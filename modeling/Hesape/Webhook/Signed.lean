import Hesape.Text.Segments
import Hesape.Webhook.Signature

/-!
# What a signature accepts

A signature covers one text, the parts joined by dots, and a validator takes the parts as the request
has them: it accepts a request when some sender summed the text that the request's parts join to.  So a
request that carries what was signed is accepted, whichever of the secrets the receiver has and however
the signature lines were joined on the way.  The other direction is a matter of cutting.  A timestamp has
no dot.  The Arandu text begins with it, so what is left to cut is the id from the body: there is one way
to do it when neither has a dot, and another one as soon as there is a dot in either.  In the text of
Standard Webhooks the timestamp stands between, and another cut is to be had wherever a piece between two
dots is a number.
-/

namespace Hesape.Webhook.Signature

open Text Codes
open List

/-! ### The statement -/

/-- Something that was signed, and when. -/
structure Signed where
  shot : Shot
  signedAt : Instant

/-- The secrets of a list are ones the dialect signs with, and not more than it keeps. -/
structure Shot.Valid (s : Shot) : Prop where
  some : s.secrets ≠ []
  few : s.secrets.length ≤ maxSignatures
  distinct : s.secrets.Nodup
  fit : ∀ secret ∈ s.secrets, match s.dialect with
    | .standardWebhooks => (standardKey secret).isSome
    | _ => minSecretBytes ≤ secret.length
  dialect : s.dialect ≠ .hmac

/-- The key a secret stands for. -/
def Dialect.keyOf : Dialect → Bytes → Option Bytes
  | .standardWebhooks, secret => standardKey secret
  | _, secret => some secret

/-- The keys something was signed with. -/
def Signed.keys (x : Signed) : List Bytes := x.shot.secrets.filterMap x.shot.dialect.keyOf

def Signed.timestamp (x : Signed) : Bytes := formatInt x.signedAt.unix

/-- The text parts are joined to. -/
def Dialect.text : Dialect → Bytes → Bytes → Bytes → Bytes
  | .standardWebhooks, id, timestamp, body => standardText id timestamp body
  | _, id, timestamp, body => aranduText timestamp id body

def Signed.text (x : Signed) : Bytes := x.shot.dialect.text x.shot.id x.timestamp x.shot.body

/-- A receiver: its validator is the one of the dialect, with a prefix and a tolerance. -/
structure Receiver where
  headerPrefix : String
  tolerance : Int
  secrets : SecretSet
  /-- A duration has sixty-four bits. -/
  fits : tolerance < 2 ^ 63

/-- The prefix of its headers, and the sender's. -/
def Receiver.start (v : Receiver) : String := Arandu.start ⟨v.headerPrefix, v.tolerance⟩

def Receiver.id (v : Receiver) : Dialect → Header → Bytes
  | .standardWebhooks, h => h.get .standardID
  | _, h => h.get (.deliveryID v.start)

def Receiver.timestamp (v : Receiver) : Dialect → Header → Bytes
  | .standardWebhooks, h => h.get .standardTimestamp
  | _, h => h.get (.timestamp v.start)

section Statement

variable (hmac : Hmac)

/-- The sums a request carries. -/
def Receiver.sums (v : Receiver) : Dialect → Header → List Bytes
  | .standardWebhooks, h => given (h.get .standardSignature)
  | _, h => (provided hmac ([comma].intercalate (h (.signature v.start)))).getD []

def Receiver.accepts (v : Receiver) (now : Instant) : Dialect → Header → Bytes → Bool
  | .standardWebhooks, h, body => StandardWebhooks.valid hmac ⟨v.tolerance⟩ now h body v.secrets
  | _, h, body => Arandu.valid hmac ⟨v.headerPrefix, v.tolerance⟩ now h body v.secrets

/-- Lines as they arrive: some of them joined by commas, perhaps with spaces after. -/
def Joined (lines values : List Bytes) : Prop :=
  ∃ groups : List (List Bytes), (∀ g ∈ groups, g ≠ []) ∧ values = groups.map ([comma].intercalate ·) ∧
    List.Forall₂ (fun line got => ∃ k, got = List.replicate k space ++ line) lines groups.flatten

/-- A header as it arrives. -/
structure Receiver.Arrives (v : Receiver) (written arrived : Header) : Prop where
  lines : Joined (written (.signature v.start)) (arrived (.signature v.start))
  others : ∀ f, f ≠ .signature v.start → arrived f = written f

theorem Receiver.Arrives.get {v : Receiver} {written arrived : Header} (h : v.Arrives written arrived) {f : Field}
    {value : Bytes} (hw : written f = [value]) (hf : f ≠ .signature v.start) : arrived.get f = value := by
  rw [Header.get, h.others f hf, hw, headD_cons]

/-- What was signed is accepted: at any clock within the tolerance, by a receiver that has one of the
secrets. -/
def Signed.Complete (x : Signed) : Prop :=
  ∀ (v : Receiver) (now : Instant) (h : Header) (userAgent : Bytes),
    -toleranceOf v.tolerance ≤ now.nanos - x.signedAt.unix * 1000000000 →
    now.nanos - x.signedAt.unix * 1000000000 ≤ toleranceOf v.tolerance →
    (∃ secret ∈ x.shot.secrets, secret ∈ v.secrets.all) →
    ∃ written, sign hmac h x.shot x.signedAt v.start userAgent = .ok written ∧
      ∀ arrived, v.Arrives written arrived → v.accepts hmac now x.shot.dialect arrived x.shot.body = true

/-- A sum under one of the receiver's keys comes from somebody who signed. -/
def Receiver.Unforged (v : Receiver) (dialect : Dialect) (signed : List Signed) (h : Header) : Prop :=
  ∀ sum ∈ v.sums hmac dialect h, ∀ secret ∈ v.secrets.all, ∀ key text, dialect.keyOf secret = some key →
    sum = hmac.sum key text → ∃ x ∈ signed, ∃ key' ∈ x.keys, sum = hmac.sum key' x.text

/-- What is accepted was signed, by a sender that has one of the receiver's secrets: the same id, the
same timestamp and the same body. -/
def Sound (dialect : Dialect) (signed : List Signed) : Prop :=
  ∀ (v : Receiver) (now : Instant) (h : Header) (body : Bytes), v.Unforged hmac dialect signed h →
    v.accepts hmac now dialect h body = true →
    ∃ x ∈ signed, x.shot.id = v.id dialect h ∧ x.timestamp = v.timestamp dialect h ∧ x.shot.body = body ∧
      ∃ secret ∈ v.secrets.all, ∃ key ∈ x.keys, dialect.keyOf secret = some key

end Statement

/-- A piece that can be taken for a timestamp. -/
def isNumber (s : Bytes) : Bool := (parseInt s).isSome

/-- The pieces of an id that may stand between two dots behind an id that is not empty. -/
def innerPieces (id : Bytes) : List Bytes :=
  match id.splitOn dot with
  | [] :: _ :: pieces => pieces
  | pieces => pieces.tail

/-- The text can be cut in one way only. -/
def Signed.unambiguous (x : Signed) : Bool :=
  match x.shot.dialect with
  | .standardWebhooks =>
    x.shot.id ≠ [] && (innerPieces x.shot.id).all (!isNumber ·) && (x.shot.body.splitOn dot).dropLast.all (!isNumber ·)
  | _ => dot ∉ x.shot.id && dot ∉ x.shot.body

/-! ### Timestamps -/

variable {s body n : Bytes}

theorem dot_notMem_of_parseInt (h : isNumber s) : dot ∉ s := by
  intro hmem
  obtain ⟨n, hn⟩ := Option.isSome_iff_exists.mp h
  obtain ⟨_, hs, -, hdigits⟩ := digits_of_parseInt ⟨n, hn⟩
  have hdot : '.' ∈ chars s := mem_map.mpr ⟨dot, hmem, by decide⟩
  rcases hs with hs | ⟨c, hc, hs⟩
  · rw [hs] at hdot
    simpa using hdigits '.' hdot
  · rw [hs] at hdot
    rcases mem_cons.mp hdot with rfl | hdot
    · simp at hc
    · simpa using hdigits '.' hdot

theorem small_of_mem_formatInt {n : Int} {c : Char} (hc : c ∈ Text.formatInt n) : c.toNat < 256 := by
  rcases mem_formatInt hc with rfl | hdigit
  · decide
  · simp only [Char.isDigit, Bool.and_eq_true, decide_eq_true_eq] at hdigit
    have : c.val.toNat ≤ 57 := UInt32.le_iff_toNat_le.mp hdigit.2
    have : c.toNat ≤ 57 := this
    omega

theorem parseInt_unix (t : Instant) : parseInt (formatInt t.unix) = some t.unix := by
  rw [parseInt, formatInt, chars_ascii fun c hc => small_of_mem_formatInt hc]
  exact parseInt_formatInt t.range

theorem Signed.isNumber_timestamp (x : Signed) : isNumber x.timestamp := by
  rw [isNumber, Signed.timestamp, parseInt_unix]
  rfl

theorem isNumber_of_timely {now : Instant} {tolerance : Int} (h : timely now tolerance s) :
    isNumber s := by
  unfold timely at h
  rw [isNumber]
  cases hp : parseInt s with
  | none =>
    rw [hp] at h
    cases h
  | some => rfl

/-- A clock within the tolerance. -/
theorem timely_of_within {now : Instant} {tolerance seconds : Int} (hs : parseInt s = some seconds)
    (hlow : -toleranceOf tolerance ≤ now.nanos - seconds * 1000000000)
    (hhigh : now.nanos - seconds * 1000000000 ≤ toleranceOf tolerance) (hfits : tolerance < 2 ^ 63) :
    timely now tolerance s := by
  have htol : toleranceOf tolerance < 2 ^ 63 := by
    unfold toleranceOf defaultTolerance
    split <;> omega
  have hsub : now.sub seconds = now.nanos - seconds * 1000000000 := by
    unfold Instant.sub
    omega
  unfold timely
  rw [hs, Option.any_some, hsub]
  simp only [Bool.not_eq_true', Bool.or_eq_false_iff, decide_eq_false_iff_not]
  omega

/-- The very time. -/
theorem timely_at {seconds : Int} (hs : parseInt s = some seconds) :
    ∃ now : Instant, timely now 0 s := by
  have hrange : -2 ^ 63 ≤ seconds ∧ seconds < 2 ^ 63 := by
    have hp : Text.parseInt (chars s) = some seconds := hs
    simpa using (Option.filter_eq_some_iff.mp hp).2
  refine ⟨⟨seconds * 1000000000, by omega⟩, timely_of_within hs ?_ ?_ (by omega)⟩
  all_goals
    simp only [toleranceOf, if_true, defaultTolerance]
    omega

/-! ### Cuts -/

variable {id timestamp : Bytes}

theorem splitOn_standardText (ht : dot ∉ timestamp) :
    (standardText id timestamp body).splitOn dot = id.splitOn dot ++ timestamp :: body.splitOn dot := by
  rw [standardText, splitOn_append_cons_self, splitOn_append_cons_self, splitOn_eq_singleton ht]
  rfl

variable {timestamp id timestamp' id' body' : Bytes}

/-- Without dots in the id and the body, the Arandu text has one cut. -/
theorem aranduText_inj (ht : dot ∉ timestamp) (ht' : dot ∉ timestamp')
    (hid : dot ∉ id) (hbody : dot ∉ body) (h : aranduText timestamp' id' body' = aranduText timestamp id body) :
    timestamp' = timestamp ∧ id' = id ∧ body' = body := by
  obtain ⟨rfl, hrest⟩ := append_cons_inj ht' ht h
  -- One dot is left, and it is the one between the two parts.
  have hcount := congrArg (count dot) hrest
  simp only [count_append, count_cons_self, count_eq_zero.mpr hid, count_eq_zero.mpr hbody] at hcount
  have hid' : dot ∉ id' := count_eq_zero.mp (by omega)
  obtain ⟨rfl, rfl⟩ := append_cons_inj hid' hid hrest
  exact ⟨rfl, rfl, rfl⟩

variable {id : Bytes}

/-- With a dot in either, it has another. -/
theorem exists_aranduText_eq (h : dot ∈ id ∨ dot ∈ body) (timestamp : Bytes) :
    ∃ id' body', id' ≠ id ∧ aranduText timestamp id' body' = aranduText timestamp id body := by
  rcases h with hid | hbody
  · obtain ⟨p, q, rfl⟩ := append_of_mem hid
    refine ⟨p, q ++ dot :: body, fun heq => ?_, by simp [aranduText]⟩
    have := congrArg length heq
    simp at this
  · obtain ⟨p, q, rfl⟩ := append_of_mem hbody
    refine ⟨id ++ dot :: p, q, fun heq => ?_, by simp [aranduText]⟩
    have := congrArg length heq
    simp at this

variable {before after : List Bytes}

/-- The pieces of an id that a number can be found among, behind an id that is not empty. -/
theorem mem_innerPieces (hbefore : before ≠ [])
    (hne : [dot].intercalate before ≠ []) (h : id.splitOn dot = before ++ n :: after) : n ∈ innerPieces id := by
  obtain ⟨p, ps, rfl⟩ := exists_cons_of_ne_nil hbefore
  rw [innerPieces, h]
  cases ps with
  | nil =>
    -- The first piece is the whole id, and so not empty.
    cases p with
    | nil => exact absurd rfl hne
    | cons => exact mem_cons_self
  | cons q ps =>
    cases p with
    | nil => exact mem_append_right ps mem_cons_self
    | cons => exact mem_cons_of_mem q (mem_append_right ps mem_cons_self)

/-- One of these pieces stands between two dots, behind an id that is not empty. -/
theorem exists_of_mem_innerPieces (h : n ∈ innerPieces id) :
    ∃ before after, id.splitOn dot = before ++ n :: after ∧ before ≠ [] ∧ [dot].intercalate before ≠ [] := by
  unfold innerPieces at h
  split at h
  · next q pieces hsplit =>
    obtain ⟨s, t, rfl⟩ := append_of_mem h
    refine ⟨[] :: q :: s, t, hsplit, nofun, ?_⟩
    simp
  · next pieces hfirst =>
    cases hsplit : id.splitOn dot with
    | nil => exact absurd hsplit (splitOn_ne_nil dot id)
    | cons p ps =>
      rw [hsplit] at h hfirst
      obtain ⟨s, t, hst⟩ := append_of_mem h
      have hps : ps = s ++ n :: t := hst
      subst hps
      refine ⟨p :: s, t, rfl, nofun, fun hempty => ?_⟩
      -- The first piece is empty, and the only one before.
      cases s with
      | nil =>
        rw [intercalate_singleton] at hempty
        subst hempty
        exact hfirst n t rfl
      | cons =>
        simp at hempty

/-- Where no inner piece is a number, the text of Standard Webhooks has one cut. -/
theorem standardText_inj (ht : dot ∉ timestamp)
    (ht' : isNumber timestamp') (hid' : id' ≠ []) (hid : (innerPieces id).all (!isNumber ·))
    (hbody : (body.splitOn dot).dropLast.all (!isNumber ·))
    (h : standardText id' timestamp' body' = standardText id timestamp body) :
    timestamp' = timestamp ∧ id' = id ∧ body' = body := by
  have hsplit := congrArg (splitOn dot) h
  rw [splitOn_standardText ht, splitOn_standardText (dot_notMem_of_parseInt ht')] at hsplit
  rcases append_eq_append_iff.mp hsplit with ⟨between, hids, hrest⟩ | ⟨between, hids, hrest⟩
  · cases between with
    | nil =>
      rw [append_nil] at hids
      rw [nil_append, cons.injEq] at hrest
      exact ⟨hrest.1, splitOn_inj hids.symm, splitOn_inj hrest.2⟩
    | cons =>
      -- The number is among the pieces of the id.
      rw [cons_append, cons.injEq] at hrest
      obtain ⟨rfl, -⟩ := hrest
      have hmem := mem_innerPieces (splitOn_ne_nil dot id')
        (by rwa [intercalate_splitOn]) hids
      have hnot := all_eq_true.mp hid _ hmem
      rw [ht'] at hnot
      cases hnot
  · cases between with
    | nil =>
      rw [append_nil] at hids
      rw [nil_append, cons.injEq] at hrest
      exact ⟨hrest.1.symm, splitOn_inj hids, splitOn_inj hrest.2.symm⟩
    | cons =>
      -- It is among those of the body, and more come after.
      rw [cons_append, cons.injEq] at hrest
      obtain ⟨-, hrest⟩ := hrest
      have hmem : timestamp' ∈ (body.splitOn dot).dropLast := by
        rw [hrest, dropLast_append_of_ne_nil (cons_ne_nil _ _), dropLast_cons_of_ne_nil (splitOn_ne_nil dot body')]
        exact mem_append_right _ mem_cons_self
      have hnot := all_eq_true.mp hbody _ hmem
      rw [ht'] at hnot
      cases hnot

/-- Pieces before and after one of them: another cut, unless it is the same. -/
theorem standardText_of_pieces (ht : dot ∉ timestamp)
    (hbefore : before ≠ []) (hafter : after ≠ [])
    (h : id.splitOn dot ++ timestamp :: body.splitOn dot = before ++ n :: after) :
    standardText ([dot].intercalate before) n ([dot].intercalate after) = standardText id timestamp body ∧
      ([dot].intercalate before = id → before.length = (id.splitOn dot).length) := by
  constructor
  · have hjoin : [dot].intercalate (id.splitOn dot ++ timestamp :: body.splitOn dot) =
        [dot].intercalate (before ++ n :: after) := by rw [h]
    rw [← splitOn_standardText ht, intercalate_splitOn, intercalate_append hbefore (cons_ne_nil _ _),
      show n :: after = [n] ++ after from rfl, intercalate_append (cons_ne_nil _ _) hafter, intercalate_singleton] at hjoin
    exact hjoin.symm
  · intro hid
    rw [← hid, splitOn_intercalate dot (fun p hp => ?_) hbefore]
    have hmem : p ∈ id.splitOn dot ++ timestamp :: body.splitOn dot := by
      rw [h]
      exact mem_append_left _ hp
    rcases mem_append.mp hmem with hp | hp
    · exact notMem_of_mem_splitOn hp
    · rcases mem_cons.mp hp with rfl | hp
      · exact ht
      · exact notMem_of_mem_splitOn hp

/-- Where an inner piece is a number, it has another cut. -/
theorem exists_standardText_eq (ht : dot ∉ timestamp)
    (h : (∃ n ∈ innerPieces id, isNumber n) ∨ ∃ n ∈ (body.splitOn dot).dropLast, isNumber n) :
    ∃ id' n body', id' ≠ [] ∧ isNumber n ∧ id' ≠ id ∧ standardText id' n body' = standardText id timestamp body := by
  rcases h with ⟨n, hn, hnum⟩ | ⟨n, hn, hnum⟩
  · obtain ⟨before, after, hsplit, hbefore, hne⟩ := exists_of_mem_innerPieces hn
    have hpieces : id.splitOn dot ++ timestamp :: body.splitOn dot =
        before ++ n :: (after ++ timestamp :: body.splitOn dot) := by
      rw [hsplit, append_assoc, cons_append]
    obtain ⟨htext, hlen⟩ := standardText_of_pieces ht hbefore (by simp) hpieces
    refine ⟨_, n, _, hne, hnum, fun hid => ?_, htext⟩
    have := hlen hid
    rw [hsplit] at this
    simp at this
  · obtain ⟨s, t, hst⟩ := append_of_mem hn
    obtain ⟨last, hlast⟩ : ∃ last, body.splitOn dot = s ++ n :: (t ++ [last]) := by
      refine ⟨(body.splitOn dot).getLast (splitOn_ne_nil dot body), ?_⟩
      conv_lhs => rw [← dropLast_append_getLast (splitOn_ne_nil dot body), hst]
      rw [append_assoc, cons_append]
    have hpieces : id.splitOn dot ++ timestamp :: body.splitOn dot =
        id.splitOn dot ++ timestamp :: s ++ n :: (t ++ [last]) := by
      rw [hlast, append_assoc, cons_append]
    obtain ⟨htext, hlen⟩ := standardText_of_pieces ht (by simp) (by simp) hpieces
    refine ⟨_, n, _, ?_, hnum, fun hid => ?_, htext⟩
    · rw [intercalate_append (splitOn_ne_nil dot id) (cons_ne_nil _ _)]
      simp
    · have := hlen hid
      simp at this

/-! ### Sums -/

section Sums

variable (hmac : Hmac)

theorem trimPrefix_append (start s : Bytes) : trimPrefix start (start ++ s) = s := by
  unfold trimPrefix
  rw [if_pos ( isPrefixOf_iff_prefix.mpr (prefix_append start s)), drop_left]

theorem expected_eq (secret timestamp id body : Bytes) :
    expected hmac secret timestamp id body = hmac.sum secret (aranduText timestamp id body) := by
  rw [expected, aranduSignature, trimPrefix_append, Hex.decode_encode]
  rfl

theorem printable_aranduSignature (secret timestamp id body : Bytes) :
    ∀ b ∈ aranduSignature hmac secret timestamp id body, printable b ∧ b ≠ comma := by
  have hstart : ∀ b ∈ signaturePrefix, printable b ∧ b ≠ comma := by decide +kernel
  intro b hb
  rcases mem_append.mp hb with hb | hb
  · exact hstart b hb
  · exact Hex.printable_encode b hb

theorem aranduSignature_ne_nil (secret timestamp id body : Bytes) : aranduSignature hmac secret timestamp id body ≠ [] :=
  append_ne_nil_of_left_ne_nil (by decide) _

/-- A line is read as its sum, spaces before it or not. -/
theorem entry_indented (k : Nat) (secret timestamp id body : Bytes) :
    entry hmac (replicate k space ++ aranduSignature hmac secret timestamp id body) =
      some (hmac.sum secret (aranduText timestamp id body)) := by
  rw [entry, space, trimSpace_indented (aranduSignature_ne_nil hmac secret timestamp id body) fun b hb =>
    (printable_aranduSignature hmac secret timestamp id body b hb).1]
  rw [aranduSignature, trimPrefix_append, Hex.decode_encode]
  simp [ isPrefixOf_iff_prefix.mpr (prefix_append _ _), hmac.isSum_sum]

theorem comma_notMem_indented (k : Nat) (secret timestamp id body : Bytes) :
    comma ∉ replicate k space ++ aranduSignature hmac secret timestamp id body := by
  intro hmem
  rcases mem_append.mp hmem with hmem | hmem
  · exact absurd (eq_of_mem_replicate hmem) (by decide)
  · exact (printable_aranduSignature hmac secret timestamp id body comma hmem).2 rfl

theorem count_intercalate {x : UInt8} : ∀ {l : List Bytes}, (∀ s ∈ l, x ∉ s) →
    ([x].intercalate l).count x = l.length - 1 := by
  intro l
  induction l with
  | nil => intro _; rfl
  | cons s l ih =>
    intro hl
    have hs := count_eq_zero.mpr (hl s mem_cons_self)
    have hrest := ih fun s' hs' => hl s' (mem_cons_of_mem s hs')
    cases l with
    | nil => rw [intercalate_singleton, hs]; rfl
    | cons =>
      rw [intercalate_cons_cons, count_append, count_append, hs, hrest, count_singleton_self]
      simp only [length_cons]
      omega

variable {timestamp id body : Bytes}

/-- Lines as they arrive, one by one. -/
theorem read_lines : ∀ {secrets lines : List Bytes},
    List.Forall₂ (fun line got => ∃ k, got = replicate k space ++ line)
      (secrets.map fun secret => aranduSignature hmac secret timestamp id body) lines →
    lines.length = secrets.length ∧ (∀ line ∈ lines, comma ∉ line) ∧
      lines.mapM (entry hmac) = some (secrets.map fun secret => hmac.sum secret (aranduText timestamp id body)) := by
  intro secrets
  induction secrets with
  | nil =>
    intro lines h
    cases h
    exact ⟨rfl, fun _ hline => absurd hline not_mem_nil, rfl⟩
  | cons secret _ ih =>
    intro lines h
    cases h with
    | cons hline hlines =>
      obtain ⟨k, rfl⟩ := hline
      obtain ⟨hlen, hcomma, hread⟩ := ih hlines
      refine ⟨by rw [length_cons, length_cons, hlen], fun line hmem => ?_, ?_⟩
      · rcases mem_cons.mp hmem with rfl | hmem
        · exact comma_notMem_indented hmac k secret timestamp id body
        · exact hcomma line hmem
      · rw [mapM_cons, entry_indented, hread]
        rfl

/-- The sums of the lines, however they arrive. -/
theorem provided_of_joined {secrets values : List Bytes} (hne : secrets ≠ [])
    (h : Joined (secrets.map fun secret => aranduSignature hmac secret timestamp id body) values) :
    provided hmac ([comma].intercalate values) =
        some (secrets.map fun secret => hmac.sum secret (aranduText timestamp id body)) ∧
      ([comma].intercalate values).count comma = secrets.length - 1 := by
  obtain ⟨groups, hgroups, rfl, hlines⟩ := h
  obtain ⟨hlen, hcomma, hread⟩ := read_lines hmac hlines
  have hlines_ne : groups.flatten ≠ [] := by
    rw [← length_pos_iff, hlen]
    exact length_pos_iff.mpr hne
  rw [intercalate_groups hgroups]
  refine ⟨?_, by rw [count_intercalate hcomma, hlen]⟩
  rw [provided, splitOn_intercalate comma hcomma hlines_ne, hread]

/-- The sums of a Standard Webhooks header. -/
theorem given_signed (keys : List Bytes) (id timestamp body : Bytes) :
    given ([space].intercalate (keys.map fun key => standardSignature hmac key id timestamp body)) =
      keys.map fun key => hmac.sum key (standardText id timestamp body) := by
  have hversion : ∀ b ∈ ascii "v1,".toList, printable b := by decide +kernel
  have hcode : ∀ key, standardSignature hmac key id timestamp body =
      ascii "v1".toList ++ comma :: Base64.encode (hmac.sum key (standardText id timestamp body)) := fun key => rfl
  rw [given, space, fields_intercalate fun s hs => ?_]
  · rw [filterMap_map, ← filterMap_eq_map]
    refine filterMap_congr fun key _ => ?_
    dsimp only [Function.comp_apply]
    rw [hcode, splitOn_append_cons_self, splitOn_eq_singleton (by decide), singleton_append]
    obtain ⟨part, parts, hparts⟩ := exists_cons_of_ne_nil
      (splitOn_ne_nil comma (Base64.encode (hmac.sum key (standardText id timestamp body))))
    rw [hparts]
    show (if ascii "v1".toList = ascii "v1".toList then Base64.decode ([comma].intercalate (part :: parts)) else none) = _
    rw [if_pos rfl, ← hparts, intercalate_splitOn, Base64.decode_encode]
  · obtain ⟨key, -, rfl⟩ := mem_map.mp hs
    refine ⟨append_ne_nil_of_left_ne_nil (by decide) _, fun b hb => ?_⟩
    rcases mem_append.mp hb with hb | hb
    · exact hversion b hb
    · exact Base64.printable_encode b hb

end Sums

/-! ### What is written -/

section Written

variable (hmac : Hmac)

theorem foldl_add (field : Field) (line : Bytes → Bytes) : ∀ (secrets : List Bytes) (h : Header) (f : Field),
    secrets.foldl (fun h secret => h.add field (line secret)) h f = if f = field then h f ++ secrets.map line else h f := by
  intro secrets
  induction secrets with
  | nil => intro h f; simp
  | cons _ _ ih =>
    intro h f
    rw [foldl_cons, ih]
    unfold Header.add
    split
    · rw [append_assoc, map_cons, singleton_append]
    · rfl

theorem Shot.Valid.oldestFirst {s : Shot} (h : s.Valid) (hd : s.dialect = .arandu) :
    s.oldestFirst = s.secrets.reverse ∧ minSecretBytes ≤ s.current.length := by
  obtain ⟨secret, _, hs⟩ := exists_cons_of_ne_nil h.some
  have hfit : ∀ secret ∈ s.secrets, minSecretBytes ≤ secret.length := by
    intro secret hsecret
    have := h.fit secret hsecret
    rwa [hd] at this
  rw [hs] at hfit
  unfold Shot.oldestFirst Shot.current
  rw [hs, tail_cons, reverse_cons, headD_cons, filter_eq_self.mpr]
  · exact ⟨rfl, hfit secret mem_cons_self⟩
  · exact fun p hp => decide_eq_true (hfit p (mem_cons_of_mem secret (mem_reverse.mp hp)))

/-- The Arandu headers. -/
theorem sign_arandu {x : Signed} (hx : x.shot.Valid) (hd : x.shot.dialect = .arandu) (h : Header) (start : String)
    (userAgent : Bytes) :
    ∃ written, sign hmac h x.shot x.signedAt start userAgent = .ok written ∧
      written (.deliveryID start) = [x.shot.id] ∧ written (.timestamp start) = [x.timestamp] ∧
      written (.signature start) =
        x.shot.secrets.reverse.map fun secret => aranduSignature hmac secret x.timestamp x.shot.id x.shot.body := by
  obtain ⟨hold, _⟩ := hx.oldestFirst hd
  have hsign : sign hmac h x.shot x.signedAt start userAgent = .ok (x.shot.oldestFirst.foldl
      (fun h secret => h.add (.signature start) (aranduSignature hmac secret x.timestamp x.shot.id x.shot.body))
      ((((signContent h userAgent).set (.deliveryID start) x.shot.id).set (.timestamp start) x.timestamp).del
        (.signature start))) := by
    unfold sign
    rw [hd]
    show signArandu hmac _ x.shot x.signedAt start = _
    unfold signArandu
    rw [if_neg (by omega)]
    rfl
  refine ⟨_, hsign, ?_⟩
  simp only [foldl_add, hold]
  refine ⟨?_, ?_, ?_⟩ <;> simp [Header.del, Header.set]

theorem mapM_standardKey : ∀ {secrets : List Bytes}, (∀ secret ∈ secrets, (standardKey secret).isSome) →
    secrets.mapM standardKey = some (secrets.filterMap standardKey) := by
  intro secrets
  induction secrets with
  | nil => intro _; rfl
  | cons secret _ ih =>
    intro h
    obtain ⟨_, hkey⟩ := Option.isSome_iff_exists.mp (h secret mem_cons_self)
    rw [mapM_cons, hkey, ih fun s hs => h s (mem_cons_of_mem secret hs), filterMap_cons, hkey]
    rfl

/-- The headers of Standard Webhooks. -/
theorem sign_standard {x : Signed} (hx : x.shot.Valid) (hd : x.shot.dialect = .standardWebhooks) (h : Header)
    (start : String) (userAgent : Bytes) :
    ∃ written, sign hmac h x.shot x.signedAt start userAgent = .ok written ∧ written .standardID = [x.shot.id] ∧
      written .standardTimestamp = [x.timestamp] ∧
      written .standardSignature = [[space].intercalate
        (x.keys.map fun key => standardSignature hmac key x.shot.id x.timestamp x.shot.body)] := by
  have hkeys : x.shot.secrets.mapM standardKey = some x.keys := by
    have hall : ∀ secret ∈ x.shot.secrets, (standardKey secret).isSome := by
      intro secret hsecret
      have := hx.fit secret hsecret
      rwa [hd] at this
    rw [mapM_standardKey hall, Signed.keys, hd]
    rfl
  have hsome : x.shot.secrets.isEmpty = false := by
    rw [isEmpty_eq_false_iff]
    exact hx.some
  have hsign : sign hmac h x.shot x.signedAt start userAgent = .ok
      ((((signContent h userAgent).set .standardID x.shot.id).set .standardTimestamp x.timestamp).set .standardSignature
        ([space].intercalate (x.keys.map fun key => standardSignature hmac key x.shot.id x.timestamp x.shot.body))) := by
    unfold sign
    rw [hd]
    simp only [signStandard, hsome, hkeys]
    rfl
  exact ⟨_, hsign, by simp [Header.set]⟩

end Written

/-! ### What is accepted -/

section Accepted

variable (hmac : Hmac)

variable {v : Receiver} {now : Instant} {h : Header} {body secret : Bytes} {x : Signed}

/-- A request whose parts join to a text that was signed, by Arandu lines. -/
theorem accepts_arandu {timestamp id signedBody : Bytes}
    {secrets : List Bytes} (hfew : secrets.length ≤ maxSignatures)
    (hlines : Joined (secrets.map fun secret => aranduSignature hmac secret timestamp id signedBody) (h (.signature v.start)))
    (htext : aranduText (h.get (.timestamp v.start)) (h.get (.deliveryID v.start)) body =
      aranduText timestamp id signedBody)
    (htimely : timely now v.tolerance (h.get (.timestamp v.start))) (hsecret : secret ∈ secrets)
    (hmem : secret ∈ v.secrets.all) (hne : secret ≠ []) : v.accepts hmac now .arandu h body := by
  obtain ⟨hsums, hcount⟩ := provided_of_joined hmac (ne_nil_of_mem hsecret) hlines
  show (timely now v.tolerance (h.get (.timestamp v.start)) && verify hmac v.secrets (h.get (.timestamp v.start))
    (h.get (.deliveryID v.start)) body ([comma].intercalate (h (.signature v.start))))
  have hpos := length_pos_of_mem hsecret
  rw [htimely, Bool.true_and, verify, hcount, if_neg (by omega), hsums]
  refine any_eq_true.mpr ⟨secret, hmem, ?_⟩
  rw [expected_eq, htext]
  simp only [Bool.and_eq_true, decide_eq_true_eq]
  exact ⟨hne, any_eq_true.mpr ⟨_, mem_map_of_mem hsecret, decide_eq_true rfl⟩⟩

/-- A request whose parts join to a text that was signed, by a Standard Webhooks header. -/
theorem accepts_standard {timestamp id signedBody key : Bytes}
    {keys : List Bytes}
    (hsignature : h.get .standardSignature =
      [space].intercalate (keys.map fun key => standardSignature hmac key id timestamp signedBody))
    (hid : h.get .standardID ≠ [])
    (htext : standardText (h.get .standardID) (h.get .standardTimestamp) body = standardText id timestamp signedBody)
    (htimely : timely now v.tolerance (h.get .standardTimestamp)) (hkey : key ∈ keys)
    (hmem : secret ∈ v.secrets.all) (hsecret : standardKey secret = some key) :
    v.accepts hmac now .standardWebhooks h body := by
  have hne : secret ≠ [] := by
    rintro rfl
    cases hsecret
  show (decide (h.get .standardID ≠ []) && timely now v.tolerance (h.get .standardTimestamp) && _)
  rw [htimely, decide_eq_true hid, Bool.true_and, Bool.true_and]
  refine any_eq_true.mpr ⟨secret, mem_filter.mpr ⟨hmem, decide_eq_true hne⟩, ?_⟩
  rw [hsecret, Option.any_some, hsignature, given_signed, htext]
  exact any_eq_true.mpr ⟨_, mem_map_of_mem hkey, decide_eq_true rfl⟩

variable {dialect : Dialect}

/-- What an accepted request carries: the sum of its own parts, under one of the receiver's keys. -/
theorem sum_of_accepts
    (ha : v.accepts hmac now dialect h body) :
    (∃ secret ∈ v.secrets.all, ∃ key, dialect.keyOf secret = some key ∧
      hmac.sum key (dialect.text (v.id dialect h) (v.timestamp dialect h) body) ∈ v.sums hmac dialect h) ∧
    isNumber (v.timestamp dialect h) ∧ (dialect = .standardWebhooks → v.id dialect h ≠ []) := by
  have harandu : Arandu.valid hmac ⟨v.headerPrefix, v.tolerance⟩ now h body v.secrets →
      (∃ secret ∈ v.secrets.all, hmac.sum secret (aranduText (h.get (.timestamp v.start)) (h.get (.deliveryID v.start)) body)
        ∈ (provided hmac ([comma].intercalate (h (.signature v.start)))).getD []) ∧
      isNumber (h.get (.timestamp v.start)) := by
    intro ha
    have ha : (timely now v.tolerance (h.get (.timestamp v.start)) && verify hmac v.secrets (h.get (.timestamp v.start))
      (h.get (.deliveryID v.start)) body ([comma].intercalate (h (.signature v.start)))) := ha
    rw [Bool.and_eq_true] at ha
    refine ⟨?_, isNumber_of_timely ha.1⟩
    have hv := ha.2
    unfold verify at hv
    split at hv
    · cases hv
    · split at hv
      · cases hv
      · next sums hsums =>
        obtain ⟨secret, hmem, hs⟩ := any_eq_true.mp hv
        rw [Bool.and_eq_true] at hs
        obtain ⟨sum, hsum, heq⟩ := any_eq_true.mp hs.2
        refine ⟨secret, hmem, ?_⟩
        rw [hsums, ← expected_eq, ← of_decide_eq_true heq]
        exact hsum
  cases dialect with
  | arandu | hmac =>
    obtain ⟨⟨secret, hmem, hsum⟩, hnum⟩ := harandu ha
    exact ⟨⟨secret, hmem, secret, rfl, hsum⟩, hnum, nofun⟩
  | standardWebhooks =>
    unfold Receiver.accepts StandardWebhooks.valid at ha
    rw [Bool.and_eq_true, Bool.and_eq_true] at ha
    obtain ⟨⟨hid, htimely⟩, hany⟩ := ha
    obtain ⟨secret, hmem, hs⟩ := any_eq_true.mp hany
    obtain ⟨key, hkey, hs⟩ := (Option.any_eq_true _ _).mp hs
    obtain ⟨sum, hsum, heq⟩ := any_eq_true.mp hs
    refine ⟨⟨secret, (mem_filter.mp hmem).1, key, hkey, ?_⟩, isNumber_of_timely htimely,
      fun _ => of_decide_eq_true hid⟩
    rw [of_decide_eq_true heq] at hsum
    exact hsum

/-- One cut. -/
theorem parts_of_text (hx : x.unambiguous) {id timestamp : Bytes}
    (hnum : isNumber timestamp) (hid : x.shot.dialect = .standardWebhooks → id ≠ [])
    (h : x.shot.dialect.text id timestamp body = x.text) :
    x.shot.id = id ∧ x.timestamp = timestamp ∧ x.shot.body = body := by
  have ht := dot_notMem_of_parseInt x.isNumber_timestamp
  have ht' := dot_notMem_of_parseInt hnum
  have harandu : (dot ∉ x.shot.id && dot ∉ x.shot.body) →
      aranduText timestamp id body = aranduText x.timestamp x.shot.id x.shot.body →
      x.shot.id = id ∧ x.timestamp = timestamp ∧ x.shot.body = body := by
    intro hx h
    simp only [Bool.and_eq_true, decide_eq_true_eq] at hx
    obtain ⟨hts, hids, hbody⟩ := aranduText_inj ht ht' hx.1 hx.2 h
    exact ⟨hids.symm, hts.symm, hbody.symm⟩
  unfold Signed.unambiguous at hx
  unfold Signed.text at h
  cases hd : x.shot.dialect with
  | arandu | hmac =>
    rw [hd] at hx h
    exact harandu hx h
  | standardWebhooks =>
    rw [hd] at hx h
    simp only [Bool.and_eq_true] at hx
    obtain ⟨hts, hids, hbody⟩ := standardText_inj ht hnum (hid hd) hx.1.2 hx.2 h
    exact ⟨hids.symm, hts.symm, hbody.symm⟩

/-- **Soundness**, where what was signed can be cut in one way only. -/
theorem sound_of_unambiguous {signed : List Signed}
    (hall : ∀ x ∈ signed, x.shot.dialect = dialect ∧ x.unambiguous) : Sound hmac dialect signed := by
  intro v _ h _ hunforged ha
  obtain ⟨⟨secret, hmem, key, hkey, hsum⟩, hnum, hid⟩ := sum_of_accepts hmac ha
  obtain ⟨x, hx, _, hkey', heq⟩ := hunforged _ hsum secret hmem key _ hkey rfl
  obtain ⟨rfl, htext⟩ := hmac.injective heq
  obtain ⟨rfl, hun⟩ := hall x hx
  obtain ⟨h₁, h₂, h₃⟩ := parts_of_text hun hnum hid htext
  exact ⟨x, hx, h₁, h₂, h₃, secret, hmem, key, hkey', hkey⟩

theorem mem_keys_of_mem_secrets (hd : x.shot.dialect = .arandu) :
    secret ∈ x.keys ↔ secret ∈ x.shot.secrets := by
  unfold Signed.keys
  rw [hd]
  simp [Dialect.keyOf]

theorem Shot.Valid.ne_nil {s : Shot} (hs : s.Valid) (hd : s.dialect = .arandu) (hsecret : secret ∈ s.secrets) :
    secret ≠ [] := by
  rintro rfl
  have hfit := hs.fit [] hsecret
  rw [hd] at hfit
  exact absurd hfit (by decide)

theorem exists_key (hx : x.shot.Valid) (hd : x.shot.dialect = .standardWebhooks) (hsecret : secret ∈ x.shot.secrets) :
    ∃ key ∈ x.keys, standardKey secret = some key := by
  have hfit := hx.fit secret hsecret
  rw [hd] at hfit
  obtain ⟨key, hkey⟩ := Option.isSome_iff_exists.mp hfit
  unfold Signed.keys
  rw [hd]
  exact ⟨key, mem_filterMap.mpr ⟨secret, hsecret, hkey⟩, hkey⟩

/-- **Completeness**; an empty id is refused by Standard Webhooks. -/
theorem complete_of_valid (hx : x.shot.Valid) (hid : x.shot.dialect = .standardWebhooks → x.shot.id ≠ []) :
    x.Complete hmac := by
  intro v now h userAgent hlow hhigh hsecret
  obtain ⟨_, hsecret, hmem⟩ := hsecret
  have htimely : timely now v.tolerance x.timestamp :=
    timely_of_within (parseInt_unix x.signedAt) hlow hhigh v.fits
  cases hd : x.shot.dialect with
  | hmac => exact absurd hd hx.dialect
  | arandu =>
    obtain ⟨written, hsign, hwid, hwts, hwsig⟩ := sign_arandu hmac hx hd h v.start userAgent
    refine ⟨written, hsign, fun arrived harrived => ?_⟩
    have hgetid := harrived.get hwid nofun
    have hgetts := harrived.get hwts nofun
    refine accepts_arandu hmac (by rw [length_reverse]; exact hx.few)
      (hwsig ▸ harrived.lines) (by rw [hgetid, hgetts]) (by rw [hgetts]; exact htimely) (mem_reverse.mpr hsecret)
      hmem (hx.ne_nil hd hsecret)
  | standardWebhooks =>
    obtain ⟨written, hsign, hwid, hwts, hwsig⟩ := sign_standard hmac hx hd h v.start userAgent
    refine ⟨written, hsign, fun arrived harrived => ?_⟩
    have hgetid := harrived.get hwid nofun
    have hgetts := harrived.get hwts nofun
    have hgetsig := harrived.get hwsig nofun
    obtain ⟨_, hkeys, hkey⟩ := exists_key hx hd hsecret
    exact accepts_standard hmac hgetsig (by rw [hgetid]; exact hid hd) (by rw [hgetid, hgetts])
      (by rw [hgetts]; exact htimely) hkeys hmem hkey

/-- A receiver that has one secret, and the default tolerance. -/
def Receiver.holding (secret : Bytes) : Receiver := ⟨"", 0, ⟨secret, []⟩, by decide⟩

theorem joined_self (lines : List Bytes) : Joined lines lines := by
  refine ⟨lines.map fun line => [line], fun g hg => ?_, ?_, ?_⟩
  · obtain ⟨line, -, rfl⟩ := mem_map.mp hg
    exact cons_ne_nil _ _
  · rw [map_map]
    conv_lhs => rw [← map_id lines]
    exact map_congr_left fun line _ => (intercalate_singleton).symm
  · have hflat : (lines.map fun line => [line]).flatten = lines := by
      rw [← flatMap_def, flatMap_singleton']
    clear hflat
    induction lines with
    | nil => exact .nil
    | cons _ _ ih => exact .cons ⟨0, rfl⟩ ih

/-- A request with another id that is accepted for the sums of what was signed. -/
theorem not_sound_of_accepts (hd : x.shot.dialect = dialect)
    (ha : v.accepts hmac now dialect h body)
    (hsums : ∀ sum ∈ v.sums hmac dialect h, ∃ key ∈ x.keys, sum = hmac.sum key (dialect.text x.shot.id x.timestamp x.shot.body))
    (hne : v.id dialect h ≠ x.shot.id) : ¬Sound hmac dialect [x] := by
  subst hd
  intro hsound
  obtain ⟨y, hy, hyid, -⟩ := hsound v now h body
    (fun sum hsum _ _ _ _ _ _ => ⟨x, mem_singleton.mpr rfl, hsums sum hsum⟩) ha
  rw [mem_singleton.mp hy] at hyid
  exact hne hyid.symm

/-- Where the Arandu text has another cut, the lines that were signed are accepted with it. -/
theorem not_sound_arandu (hx : x.shot.Valid) (hd : x.shot.dialect = .arandu)
    (hdot : dot ∈ x.shot.id ∨ dot ∈ x.shot.body) : ¬Sound hmac .arandu [x] := by
  obtain ⟨secret, hsecret⟩ := exists_mem_of_ne_nil _ hx.some
  obtain ⟨id, body, hne, htext⟩ := exists_aranduText_eq hdot x.timestamp
  obtain ⟨now, htimely⟩ := timely_at (parseInt_unix x.signedAt)
  let v := Receiver.holding secret
  obtain ⟨written, -, -, hwts, hwsig⟩ := sign_arandu hmac hx hd (fun _ => []) v.start []
  obtain ⟨h, hh⟩ : ∃ h, h = written.set (.deliveryID v.start) id := ⟨_, rfl⟩
  have hgetts : h.get (.timestamp v.start) = x.timestamp := by simp [hh, Header.get, Header.set, hwts]
  have hgetid : h.get (.deliveryID v.start) = id := by simp [hh, Header.get, Header.set]
  have hlines : Joined (x.shot.secrets.reverse.map fun secret =>
      aranduSignature hmac secret x.timestamp x.shot.id x.shot.body) (h (.signature v.start)) := by
    have hset : h (.signature v.start) = written (.signature v.start) := by simp [hh, Header.set]
    rw [hset, hwsig]
    exact joined_self _
  have haccepts : v.accepts hmac now .arandu h body := accepts_arandu hmac
    (by rw [length_reverse]; exact hx.few) hlines (by rw [hgetid, hgetts]; exact htext)
    (by rw [hgetts]; exact htimely) (mem_reverse.mpr hsecret) mem_cons_self (hx.ne_nil hd hsecret)
  refine not_sound_of_accepts hmac hd haccepts (fun sum hsum => ?_) fun hid => hne (hgetid.symm.trans hid)
  have hsum : sum ∈ (provided hmac _).getD [] := hsum
  rw [(provided_of_joined hmac (by simpa using hx.some) hlines).1] at hsum
  obtain ⟨key, hkey, rfl⟩ := mem_map.mp hsum
  exact ⟨key, (mem_keys_of_mem_secrets hd).mpr (mem_reverse.mp hkey), rfl⟩

/-- Where the text of Standard Webhooks has another cut, the header that was signed is accepted with it. -/
theorem not_sound_standard (hx : x.shot.Valid) (hd : x.shot.dialect = .standardWebhooks)
    (hnumber : (∃ n ∈ innerPieces x.shot.id, isNumber n) ∨
      ∃ n ∈ (x.shot.body.splitOn dot).dropLast, isNumber n) : ¬Sound hmac .standardWebhooks [x] := by
  obtain ⟨secret, hsecret⟩ := exists_mem_of_ne_nil _ hx.some
  obtain ⟨id, n, body, hidne, hn, hne, htext⟩ :=
    exists_standardText_eq (dot_notMem_of_parseInt x.isNumber_timestamp) hnumber
  obtain ⟨_, hseconds⟩ := Option.isSome_iff_exists.mp hn
  obtain ⟨now, htimely⟩ := timely_at hseconds
  let v := Receiver.holding secret
  obtain ⟨written, -, -, -, hwsig⟩ := sign_standard hmac hx hd (fun _ => []) v.start []
  obtain ⟨h, hh⟩ : ∃ h, h = (written.set .standardID id).set .standardTimestamp n := ⟨_, rfl⟩
  have hgetts : h.get .standardTimestamp = n := by simp [hh, Header.get, Header.set]
  have hgetid : h.get .standardID = id := by simp [hh, Header.get, Header.set]
  have hgetsig : h.get .standardSignature = [space].intercalate
      (x.keys.map fun key => standardSignature hmac key x.shot.id x.timestamp x.shot.body) := by
    simp [hh, Header.get, Header.set, hwsig]
  obtain ⟨key, hkeys, hkey⟩ := exists_key hx hd hsecret
  have haccepts : v.accepts hmac now .standardWebhooks h body := accepts_standard hmac hgetsig
    (by rw [hgetid]; exact hidne) (by rw [hgetid, hgetts]; exact htext) (by rw [hgetts]; exact htimely) hkeys
    mem_cons_self hkey
  refine not_sound_of_accepts hmac hd haccepts (fun sum hsum => ?_) fun hid => hne (hgetid.symm.trans hid)
  have hsum : sum ∈ given (h.get .standardSignature) := hsum
  rw [hgetsig, given_signed] at hsum
  obtain ⟨key', hkey', rfl⟩ := mem_map.mp hsum
  exact ⟨key', hkey', rfl⟩

end Accepted

/-! ### The result -/

/-- An empty id of Standard Webhooks is refused. -/
theorem not_complete_of_empty {hmac : Hmac} {x : Signed} (hx : x.shot.Valid) (hd : x.shot.dialect = .standardWebhooks)
    (hid : x.shot.id = []) : ¬x.Complete hmac := by
  intro hcomplete
  obtain ⟨secret, hsecret⟩ := exists_mem_of_ne_nil _ hx.some
  obtain ⟨written, hsign, hwid, -⟩ := sign_standard hmac hx hd (fun _ => []) (Receiver.holding secret).start []
  have hrange : -2 ^ 63 ≤ x.signedAt.unix ∧ x.signedAt.unix < 2 ^ 63 := x.signedAt.range
  obtain ⟨_, hsign', haccepts⟩ := hcomplete (Receiver.holding secret)
    ⟨x.signedAt.unix * 1000000000, by omega⟩ (fun _ => []) []
    (by simp only [Receiver.holding, toleranceOf, if_true, defaultTolerance]; omega)
    (by simp only [Receiver.holding, toleranceOf, if_true, defaultTolerance]; omega)
    ⟨secret, hsecret, mem_cons_self⟩
  rw [hsign] at hsign'
  cases hsign'
  have ha := haccepts written ⟨joined_self _, fun _ _ => rfl⟩
  obtain ⟨-, -, hne⟩ := sum_of_accepts hmac ha
  refine hne hd ?_
  rw [hd]
  show written.get .standardID = []
  rw [Header.get, hwid, hid, headD_cons]

/-- **A signature accepts what was signed, where it can be cut in one way only.**  For something that was
signed: it is accepted and, were it all that was ever signed, nothing else is, exactly when its text has
one cut.  And whatever was signed, if each of the texts has one cut, a request that is accepted carries an
id, a timestamp and a body that were signed together under one of the receiver's secrets. -/
theorem accepts_what_was_signed (hmac : Hmac) :
    (∀ x : Signed, x.shot.Valid → ((x.Complete hmac ∧ Sound hmac x.shot.dialect [x]) ↔ x.unambiguous = true)) ∧
    ∀ (dialect : Dialect) (signed : List Signed),
      (∀ x ∈ signed, x.shot.Valid ∧ x.shot.dialect = dialect ∧ x.unambiguous = true) →
      (∀ x ∈ signed, x.Complete hmac) ∧ Sound hmac dialect signed := by
  have hcomplete : ∀ x : Signed, x.shot.Valid → x.unambiguous → x.Complete hmac := by
    refine fun x hx hun => complete_of_valid hmac hx fun hd => ?_
    unfold Signed.unambiguous at hun
    rw [hd] at hun
    simp only [Bool.and_eq_true, decide_eq_true_eq] at hun
    exact hun.1.1
  refine ⟨fun x hx => ⟨fun ⟨hcom, hsound⟩ => ?_, fun hun => ⟨hcomplete x hx hun, ?_⟩⟩, fun dialect signed hall => ⟨?_, ?_⟩⟩
  · unfold Signed.unambiguous
    cases hd : x.shot.dialect with
    | hmac => exact absurd hd hx.dialect
    | arandu =>
      rw [hd] at hsound
      simp only [Bool.and_eq_true, decide_eq_true_eq]
      rw [← not_or]
      exact fun hdot => not_sound_arandu hmac hx hd hdot hsound
    | standardWebhooks =>
      rw [hd] at hsound
      have hnumber := fun h => not_sound_standard hmac hx hd h hsound
      simp only [Bool.and_eq_true, decide_eq_true_eq, all_eq_true, Bool.not_eq_true']
      refine ⟨⟨fun hid => not_complete_of_empty hx hd hid hcom, fun n hn => ?_⟩, fun n hn => ?_⟩
      · rw [← Bool.not_eq_true]
        exact fun hnum => hnumber (.inl ⟨n, hn, hnum⟩)
      · rw [← Bool.not_eq_true]
        exact fun hnum => hnumber (.inr ⟨n, hn, hnum⟩)
  · refine sound_of_unambiguous hmac fun y hy => ?_
    rw [mem_singleton.mp hy]
    exact ⟨rfl, hun⟩
  · exact fun x hx => hcomplete x (hall x hx).1 (hall x hx).2.2
  · exact sound_of_unambiguous hmac fun x hx => (hall x hx).2

/-! ### Another delivery -/

/-- A function that is injective: the key with a one before each of its bytes, a zero, and the message. -/
def tagged : Hmac where
  sum key message := key.flatMap (fun b => [1, b]) ++ 0 :: message
  isSum _ := true
  isSum_sum _ _ := rfl
  injective {key message key' message'} h := by
    induction key generalizing key' with
    | nil =>
      cases key' with
      | nil => exact ⟨rfl, by simpa using h⟩
      | cons => simp at h
    | cons b _ ih =>
      cases key' with
      | nil => simp at h
      | cons =>
        simp only [List.flatMap_cons, List.cons_append, List.nil_append, List.cons.injEq, true_and] at h
        obtain ⟨rfl, h⟩ := h
        obtain ⟨rfl, rfl⟩ := ih h
        exact ⟨rfl, rfl⟩

/-- Thirty-two bytes. -/
def secret32 : Bytes := List.replicate 32 97

/-- A secret of Standard Webhooks. -/
def standardSecret : Bytes := standardSecretPrefix ++ Base64.encode secret32

def noon : Instant := ⟨1700000000 * 1000000000, by decide⟩

/-- A delivery of each dialect. -/
def aranduDelivery (id body : String) : Signed := ⟨⟨ascii id.toList, .arandu, ascii body.toList, [secret32], "", false⟩, noon⟩
def standardDelivery (id body : String) : Signed :=
  ⟨⟨ascii id.toList, .standardWebhooks, ascii body.toList, [standardSecret], "", false⟩, noon⟩

/-- A delivery without dots. -/
theorem accepts_what_was_signed_once :
    (aranduDelivery "d1" "x").Complete tagged ∧ Sound tagged .arandu [aranduDelivery "d1" "x"] :=
  ((accepts_what_was_signed tagged).1 (aranduDelivery "d1" "x")
    ⟨by decide, by decide, by decide, fun secret hsecret => mem_singleton.mp hsecret ▸ (by decide : 32 ≤ 32),
      by decide⟩).mpr (by decide)

/-- **Another delivery is accepted.**  Signed: the id `d1` and the body `5.x`; accepted with the same
signature: the id `d1.5` and the body `x`.  Signed: the id `m`, at noon, and a body that begins with the
second after; accepted: the id `m.1700000000`, at that second, and the rest of the body. -/
theorem accepts_another_delivery :
    ((sign tagged (fun _ => []) (aranduDelivery "d1" "5.x").shot noon "X-Arandu" []).toOption.any fun h =>
      Arandu.valid tagged ⟨"", 0⟩ noon (h.set (.deliveryID "X-Arandu") (ascii "d1.5".toList)) (ascii "x".toList)
        ⟨secret32, []⟩) = true ∧
    ((sign tagged (fun _ => []) (standardDelivery "m" "1700000001.x").shot noon "X-Arandu" []).toOption.any fun h =>
      StandardWebhooks.valid tagged ⟨0⟩ noon ((h.set .standardID (ascii "m.1700000000".toList)).set .standardTimestamp
        (ascii "1700000001".toList)) (ascii "x".toList) ⟨standardSecret, []⟩) = true := by
  constructor
  · decide +kernel
  · decide +kernel

end Hesape.Webhook.Signature
