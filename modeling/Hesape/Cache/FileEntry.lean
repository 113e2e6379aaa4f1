import Hesape.Text.Digits
import Mathlib.Data.String.Basic

/-!
# One entry in a file

An entry file begins with ten digits of unix expiry, three digits of millisecond and eight
hexadecimal digits of key length; the key and the value follow.  `decodeFileEntry` reads back
what `encodeFileEntry` wrote (`decode_encode`), with the expiry as far as the header keeps it:
`stamp` drops what is below a millisecond and stops at the last second ten digits can name.

Time is counted in nanoseconds from the unix epoch.
-/

namespace Hesape.Cache

open Hesape.Text (padded parseInt parseUint length_padded parseInt_padded parseUint_padded parseInt_lt)
open List

def nanosPerMilli : Nat := 1000000
def nanosPerSecond : Nat := 1000000000

/-- The last second the header can name. -/
def lastSecond : Nat := 9999999999

/-- The second and the millisecond of an expiry, as the header keeps them. -/
def headerTime (expires : Nat) : Nat × Nat :=
  if expires / nanosPerSecond > lastSecond then (lastSecond, 0)
  else (expires / nanosPerSecond, expires % nanosPerSecond / nanosPerMilli)

/-- The moment a header names. -/
def stamp (expires : Nat) : Nat :=
  (headerTime expires).1 * nanosPerSecond + (headerTime expires).2 * nanosPerMilli

/-- The length of the fixed part. -/
def fileHeader : Nat := 10 + 3 + 8

def encodeHeader (keyLength expires : Nat) : List Char :=
  padded 10 10 (headerTime expires).1 ++ padded 10 3 (headerTime expires).2 ++ padded 16 8 keyLength

def encodeFileEntry (key value : String) (expires : Nat) : String :=
  String.ofList (encodeHeader key.length expires) ++ key ++ value

/-- What an entry file says. -/
structure FileEntry where
  key : String
  value : String
  expires : Int

/-- An entry read back; a file that is too short or whose header does not parse is none. -/
def decodeFileEntry (raw : String) : Option FileEntry :=
  let cs := raw.toList
  if cs.length < fileHeader then none
  else do
    let unix ← parseInt (cs.take 10)
    let millis ← parseInt ((cs.drop 10).take 3)
    let length ← parseUint 16 ((cs.drop 13).take 8)
    if cs.length < fileHeader + length then none
    else some {
      key := String.ofList ((cs.drop fileHeader).take length)
      value := String.ofList (cs.drop (fileHeader + length))
      expires := unix * nanosPerSecond + millis * nanosPerMilli }

/-! ### The round trip -/

theorem headerTime_fits (expires : Nat) :
    (headerTime expires).1 < 10 ^ 10 ∧ (headerTime expires).2 < 10 ^ 3 := by
  unfold headerTime
  split
  · decide
  · next hle =>
    simp only [lastSecond, nanosPerMilli, nanosPerSecond] at *
    omega

theorem stamp_eq (t : Nat) :
    stamp t = if t / nanosPerSecond > lastSecond then lastSecond * nanosPerSecond
      else t / nanosPerMilli * nanosPerMilli := by
  unfold stamp headerTime
  split
  · rfl
  · simp only [nanosPerSecond, nanosPerMilli]
    omega

/-- **An entry is read back as it was written.** -/
theorem decode_encode (key value : String) (expires : Nat) (hk : key.length < 16 ^ 8) :
    decodeFileEntry (encodeFileEntry key value expires) = some ⟨key, value, stamp expires⟩ := by
  obtain ⟨hs, hm⟩ := headerTime_fits expires
  have h10 := length_padded hs
  have h3 := length_padded hm
  have h8 := length_padded hk
  have hlist : (encodeFileEntry key value expires).toList
      = padded 10 10 (headerTime expires).1 ++ (padded 10 3 (headerTime expires).2
        ++ (padded 16 8 key.length ++ (key.toList ++ value.toList))) := by
    simp [encodeFileEntry, encodeHeader, String.toList_append]
  have hkey : key.toList.length = key.length := String.length_toList
  have hunix : (encodeFileEntry key value expires).toList.take 10
      = padded 10 10 (headerTime expires).1 := by
    rw [hlist, take_left' h10]
  have hdrop10 : (encodeFileEntry key value expires).toList.drop 10
      = padded 10 3 (headerTime expires).2 ++ (padded 16 8 key.length ++ (key.toList ++ value.toList)) := by
    rw [hlist, drop_left' h10]
  have hdrop13 : (encodeFileEntry key value expires).toList.drop 13
      = padded 16 8 key.length ++ (key.toList ++ value.toList) := by
    rw [show 13 = 10 + 3 from rfl, ← drop_drop, hdrop10, drop_left' h3]
  have hdrop21 : (encodeFileEntry key value expires).toList.drop fileHeader
      = key.toList ++ value.toList := by
    rw [show fileHeader = 13 + 8 from rfl, ← drop_drop, hdrop13, drop_left' h8]
  have hlength : (encodeFileEntry key value expires).toList.length
      = fileHeader + (key.length + value.toList.length) := by
    rw [hlist]
    simp only [length_append, h10, h3, h8, hkey, fileHeader]
    omega
  have hparse10 : parseInt (padded 10 10 (headerTime expires).1) = some ((headerTime expires).1 : Int) :=
    parseInt_padded (by decide) hs (by omega)
  have hparse3 : parseInt (padded 10 3 (headerTime expires).2) = some ((headerTime expires).2 : Int) :=
    parseInt_padded (by decide) hm (by omega)
  have hparse8 : parseUint 16 (padded 16 8 key.length) = some key.length :=
    parseUint_padded (by decide) (by decide) (by decide) hk
  unfold decodeFileEntry
  simp only [hunix, hdrop10, hdrop13, take_left' h3, take_left' h8, hparse10, hparse3,
    hparse8, Option.bind_eq_bind, Option.bind_some]
  rw [if_neg (by omega), if_neg (by omega)]
  rw [hdrop21, ← drop_drop, hdrop21, take_left' hkey, drop_left' hkey]
  simp [stamp, String.ofList_toList]

/-- Whatever a header says, it would say again: ten digits and three. -/
theorem stamp_decoded {raw : String} {entry : FileEntry} (h : decodeFileEntry raw = some entry) :
    stamp entry.expires.toNat = entry.expires.toNat := by
  unfold decodeFileEntry at h
  dsimp only at h
  split at h
  · cases h
  · obtain ⟨unix, hunix, h⟩ := Option.bind_eq_some_iff.mp h
    obtain ⟨millis, hmillis, h⟩ := Option.bind_eq_some_iff.mp h
    obtain ⟨length, -, h⟩ := Option.bind_eq_some_iff.mp h
    split at h
    · cases h
    · cases h
      have hlen : ∀ (l : List Char) (n : Nat), (10 : Int) ^ (l.take n).length ≤ 10 ^ n := by
        intro l n
        exact_mod_cast Nat.pow_le_pow_right (by decide) (length_take_le n l)
      have hu := (parseInt_lt hunix).2
      have hm := (parseInt_lt hmillis).2
      have hu' := hlen raw.toList 10
      have hm' := hlen (raw.toList.drop 10) 3
      have hsecond : unix ≤ 9999999999 := by omega
      have hmilli : millis ≤ 999 := by omega
      dsimp only
      rw [stamp_eq, if_neg]
      · simp only [nanosPerMilli, nanosPerSecond]
        omega
      · simp only [nanosPerMilli, nanosPerSecond, lastSecond]
        omega

end Hesape.Cache
