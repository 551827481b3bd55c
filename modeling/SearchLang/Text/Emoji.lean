import SearchLang.Text.Letter

/-!
# Emoji

The emoji a query recognises: single pictographs, keycaps (a digit, `#` or `*`
under the combining keycap) and flags (two regional indicators whose letters
are a known region).
-/

namespace SearchLang.Text

/-- Characters that are an emoji by themselves. -/
def pictographs : List (Nat × Nat) := [
  (0x00A9, 0x00A9), (0x00AE, 0x00AE), (0x203C, 0x203C), (0x2049, 0x2049), (0x2122, 0x2122),
  (0x2139, 0x2139), (0x2194, 0x2199), (0x21A9, 0x21A9), (0x21AA, 0x21AA), (0x231A, 0x231A),
  (0x231B, 0x231B), (0x2328, 0x2328), (0x2388, 0x2388), (0x23CF, 0x23CF), (0x23E9, 0x23F3),
  (0x23F8, 0x23FA), (0x24C2, 0x24C2), (0x25AA, 0x25AA), (0x25AB, 0x25AB), (0x25B6, 0x25B6),
  (0x25C0, 0x25C0), (0x25FB, 0x25FE), (0x2600, 0x2604), (0x260E, 0x260E), (0x2611, 0x2611),
  (0x2614, 0x2614), (0x2615, 0x2615), (0x2618, 0x2618), (0x261D, 0x261D), (0x2620, 0x2620),
  (0x2622, 0x2622), (0x2623, 0x2623), (0x2626, 0x2626), (0x262A, 0x262A), (0x262E, 0x262E),
  (0x262F, 0x262F), (0x2638, 0x263A), (0x2648, 0x2653), (0x2660, 0x2660), (0x2663, 0x2663),
  (0x2665, 0x2665), (0x2666, 0x2666), (0x2668, 0x2668), (0x267B, 0x267B), (0x267F, 0x267F),
  (0x2692, 0x2694), (0x2696, 0x2696), (0x2697, 0x2697), (0x2699, 0x2699), (0x269B, 0x269B),
  (0x269C, 0x269C), (0x26A0, 0x26A0), (0x26A1, 0x26A1), (0x26AA, 0x26AA), (0x26AB, 0x26AB),
  (0x26B0, 0x26B0), (0x26B1, 0x26B1), (0x26BD, 0x26BD), (0x26BE, 0x26BE), (0x26C4, 0x26C4),
  (0x26C5, 0x26C5), (0x26C8, 0x26C8), (0x26CE, 0x26CE), (0x26CF, 0x26CF), (0x26D1, 0x26D1),
  (0x26D3, 0x26D3), (0x26D4, 0x26D4), (0x26E9, 0x26E9), (0x26EA, 0x26EA), (0x26F0, 0x26F5),
  (0x26F7, 0x26FA), (0x26FD, 0x26FD), (0x2702, 0x2702), (0x2705, 0x2705), (0x2708, 0x270D),
  (0x270F, 0x270F), (0x2712, 0x2712), (0x2714, 0x2714), (0x2716, 0x2716), (0x271D, 0x271D),
  (0x2721, 0x2721), (0x2728, 0x2728), (0x2733, 0x2733), (0x2734, 0x2734), (0x2744, 0x2744),
  (0x2747, 0x2747), (0x274C, 0x274C), (0x274E, 0x274E), (0x2753, 0x2755), (0x2757, 0x2757),
  (0x2763, 0x2763), (0x2764, 0x2764), (0x2795, 0x2797), (0x27A1, 0x27A1), (0x27B0, 0x27B0),
  (0x27BF, 0x27BF), (0x2934, 0x2934), (0x2935, 0x2935), (0x2B05, 0x2B07), (0x2B1B, 0x2B1B),
  (0x2B1C, 0x2B1C), (0x2B50, 0x2B50), (0x2B55, 0x2B55), (0x3030, 0x3030), (0x303D, 0x303D),
  (0x3297, 0x3297), (0x3299, 0x3299), (0x1F004, 0x1F004), (0x1F0CF, 0x1F0CF), (0x1F170, 0x1F170),
  (0x1F171, 0x1F171), (0x1F17E, 0x1F17E), (0x1F17F, 0x1F17F), (0x1F18E, 0x1F18E),
  (0x1F191, 0x1F19A), (0x1F201, 0x1F201), (0x1F202, 0x1F202), (0x1F21A, 0x1F21A),
  (0x1F22F, 0x1F22F), (0x1F232, 0x1F23A), (0x1F250, 0x1F250), (0x1F251, 0x1F251),
  (0x1F300, 0x1F321), (0x1F324, 0x1F393), (0x1F396, 0x1F396), (0x1F397, 0x1F397),
  (0x1F399, 0x1F39B), (0x1F39E, 0x1F3F0), (0x1F3F3, 0x1F3F5), (0x1F3F7, 0x1F4FD),
  (0x1F4FF, 0x1F53D), (0x1F549, 0x1F54E), (0x1F550, 0x1F567), (0x1F56F, 0x1F56F),
  (0x1F570, 0x1F570), (0x1F573, 0x1F579), (0x1F587, 0x1F587), (0x1F58A, 0x1F58D),
  (0x1F590, 0x1F590), (0x1F595, 0x1F595), (0x1F596, 0x1F596), (0x1F5A5, 0x1F5A5),
  (0x1F5A8, 0x1F5A8), (0x1F5B1, 0x1F5B1), (0x1F5B2, 0x1F5B2), (0x1F5BC, 0x1F5BC),
  (0x1F5C2, 0x1F5C4), (0x1F5D1, 0x1F5D3), (0x1F5DC, 0x1F5DE), (0x1F5E1, 0x1F5E1),
  (0x1F5E3, 0x1F5E3), (0x1F5EF, 0x1F5EF), (0x1F5F3, 0x1F5F3), (0x1F5FA, 0x1F64F),
  (0x1F680, 0x1F6C5), (0x1F6CB, 0x1F6D0), (0x1F6E0, 0x1F6E5), (0x1F6E9, 0x1F6E9),
  (0x1F6EB, 0x1F6EB), (0x1F6EC, 0x1F6EC), (0x1F6F0, 0x1F6F0), (0x1F6F3, 0x1F6F3),
  (0x1F910, 0x1F918), (0x1F980, 0x1F984), (0x1F9C0, 0x1F9C0)]

/-- For each first letter of a region, the letters that may follow it. -/
def regions : List (Char × List Char) := [
  ('A', ['C', 'D', 'E', 'F', 'G', 'I', 'L', 'M', 'O', 'Q', 'R', 'S', 'T', 'U', 'W', 'X', 'Z']),
  ('B', ['A', 'B', 'D', 'E', 'F', 'G', 'H', 'I', 'J', 'L', 'M', 'N', 'O', 'Q', 'R', 'S', 'T', 'V', 'W', 'Y', 'Z']),
  ('C', ['A', 'C', 'D', 'F', 'G', 'H', 'I', 'K', 'L', 'M', 'N', 'O', 'P', 'R', 'U', 'V', 'W', 'X', 'Y', 'Z']),
  ('D', ['E', 'G', 'J', 'K', 'M', 'O', 'Z']),
  ('E', ['A', 'C', 'E', 'G', 'H', 'R', 'S', 'T', 'U']),
  ('F', ['I', 'J', 'K', 'M', 'O', 'R']),
  ('G', ['A', 'B', 'D', 'E', 'F', 'G', 'H', 'I', 'L', 'M', 'N', 'P', 'Q', 'R', 'S', 'T', 'U', 'W', 'Y']),
  ('H', ['K', 'M', 'N', 'R', 'T', 'U']),
  ('I', ['C', 'D', 'E', 'L', 'M', 'N', 'O', 'Q', 'R', 'S', 'T']),
  ('J', ['E', 'M', 'O', 'P']),
  ('K', ['E', 'G', 'H', 'I', 'M', 'N', 'P', 'R', 'W', 'Y', 'Z']),
  ('L', ['A', 'B', 'C', 'I', 'K', 'R', 'S', 'T', 'U', 'V', 'Y']),
  ('M', ['A', 'C', 'D', 'E', 'F', 'G', 'H', 'K', 'L', 'M', 'N', 'O', 'P', 'Q', 'R', 'S', 'T', 'U', 'V', 'W', 'X', 'Y', 'Z']),
  ('N', ['A', 'C', 'E', 'F', 'G', 'I', 'L', 'O', 'P', 'R', 'U', 'Z']),
  ('O', ['M']),
  ('P', ['A', 'E', 'F', 'G', 'H', 'K', 'L', 'M', 'N', 'R', 'S', 'T', 'W', 'Y']),
  ('Q', ['A']),
  ('R', ['E', 'O', 'S', 'U', 'W']),
  ('S', ['A', 'B', 'C', 'D', 'E', 'G', 'H', 'I', 'J', 'K', 'L', 'M', 'N', 'O', 'R', 'S', 'T', 'V', 'X', 'Y', 'Z']),
  ('T', ['A', 'C', 'D', 'F', 'G', 'H', 'J', 'K', 'L', 'M', 'N', 'O', 'R', 'T', 'V', 'W', 'Z']),
  ('U', ['A', 'G', 'M', 'S', 'Y', 'Z']),
  ('V', ['A', 'C', 'E', 'G', 'I', 'N', 'U']),
  ('W', ['F', 'S']),
  ('X', ['K']),
  ('Y', ['E', 'T']),
  ('Z', ['A', 'M', 'W'])]

/-- The letter that a regional indicator stands for. -/
def regionalLetter? (c : Char) : Option Char :=
  if 0x1F1E6 ≤ c.toNat && c.toNat ≤ 0x1F1FF then
    some (Char.ofNat (c.toNat - 0x1F1E6 + 'A'.toNat))
  else
    none

/-- A character that is an emoji by itself. -/
def isPictograph (c : Char) : Bool :=
  inRanges pictographs c.toNat

/-- A digit, `#` or `*`: what the combining keycap turns into an emoji. -/
def isKeycapBase (c : Char) : Bool :=
  c.isDigit || c == '#' || c == '*'

/-- Two letters that name a region with a flag. -/
def isRegion (first second : Char) : Bool :=
  regions.any fun (a, followers) => a == first && followers.contains second

/-- A text that is one emoji. -/
def isEmoji : Text → Bool
  | [c] => isPictograph c
  | [c, d] =>
    (isKeycapBase c && d == '\u20E3') ||
      match regionalLetter? c, regionalLetter? d with
      | some a, some b => isRegion a b
      | _, _ => false
  | _ => false

theorem length_of_isEmoji {s : Text} (h : isEmoji s = true) : s.length = 1 ∨ s.length = 2 := by
  match s, h with
  | [_], _ => simp
  | [_, _], _ => simp

end SearchLang.Text
