import SearchLang.Text.Basic

/-!
# Punycode

Labels of host names are written in ASCII: the ASCII characters of a label come
first, then where the other characters go, as numbers in a base of 36 digits
whose place values depend on the distances so far.
-/

namespace SearchLang.Punycode

/-- The digits, worth 0 to 35. -/
def digit (n : Nat) : Char :=
  if n < 26 then Char.ofNat ('a'.toNat + n) else Char.ofNat ('0'.toNat + (n - 26))

/-- The threshold at a place: a smaller digit there is the last. -/
def threshold (bias k : Nat) : Nat :=
  if k ≤ bias + 1 then 1 else if bias + 26 ≤ k then 26 else k - bias

/-- Brings a distance into reach, and counts the places that this takes. -/
def settle : Nat → Nat → Nat → Nat
  | 0, delta, k => k + 36 * delta / (delta + 38)
  | fuel + 1, delta, k =>
    if 455 < delta then settle fuel (delta / 35) (k + 36) else k + 36 * delta / (delta + 38)

/-- The bias after a distance, of which `count` have been written; the first one is damped. -/
def adapt (delta count : Nat) (isFirst : Bool) : Nat :=
  let delta := if isFirst then delta / 700 else delta / 2
  let delta := delta + delta / count
  settle delta delta 0

/-- The digits of a distance from place `k` on. -/
def distance (bias : Nat) : Nat → Nat → Nat → Text
  | 0, q, _ => [digit q]
  | fuel + 1, q, k =>
    let t := threshold bias k
    if q < t then [digit q]
    else digit (t + (q - t) % (36 - t)) :: distance bias fuel ((q - t) / (36 - t)) (k + 36)

/-- The state of an encoding: what has been written (the newest digits first), the distance, the
bias, and how many characters have been placed. -/
structure Progress where
  written : List Text
  delta : Nat
  bias : Nat
  placed : Nat

/-- Goes past one character while those equal to `n` are placed. -/
def place (ascii n : Nat) (p : Progress) (c : Char) : Progress :=
  if c.toNat < n then { p with delta := p.delta + 1 }
  else if c.toNat = n then
    { written := distance p.bias p.delta p.delta 36 :: p.written
      delta := 0
      bias := adapt p.delta (p.placed + 1) (p.placed == ascii)
      placed := p.placed + 1 }
  else p

/-- Places the characters from code point `n` on, one code point at a time. -/
def placeAll (ascii : Nat) (label : Text) : Nat → Nat → Progress → Progress
  | 0, _, p => p
  | fuel + 1, n, p =>
    match ((label.map Char.toNat).filter fun c => n ≤ c).min? with
    | none => p
    | some m =>
      let p := { p with delta := p.delta + (m - n) * (p.placed + 1) }
      let p := label.foldl (place ascii m) p
      placeAll ascii label fuel (m + 1) { p with delta := p.delta + 1 }

/-- The Punycode of a label. -/
def encode (label : Text) : Text :=
  let ascii := label.filter fun c => c.toNat < 128
  let p := placeAll ascii.length label label.length 128 ⟨[], 0, 72, ascii.length⟩
  ascii ++ (if ascii.isEmpty then [] else ['-']) ++ p.written.reverse.flatten

end SearchLang.Punycode
