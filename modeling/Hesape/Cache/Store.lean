import Hesape.Cache.Table
import Hesape.Text.Digits

/-!
# What every store shares

Values are bytes; a counter is its decimal text, read with a sign and within sixty-four bits
and added to with wrap-around, as `strconv` and an `int64` do.
-/

namespace Hesape.Cache

/-- An `int64` after an addition. -/
def wrap64 (n : Int) : Int := (n + 2 ^ 63) % 2 ^ 64 - 2 ^ 63

instance : Counter String where
  bump raw delta := (Text.parseInt raw.toList).map fun n => wrap64 (n + delta)
  render n := toString n

end Hesape.Cache
