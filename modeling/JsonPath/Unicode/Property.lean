import JsonPath.Unicode.Category
import JsonPath.Unicode.Folding

set_option autoImplicit false

/-!
# Properties of characters

The sets of characters that patterns can name: general categories, white space, and the characters
of words, by version 16 of the Unicode character database. The names of groups go by version 17.
-/
namespace JsonPath.Unicode

def category (c : Char) : Category := .ofCodePoint c.toNat

/-- The marks and symbols that count as alphabetic, as the ends of ranges in order. -/
def alphabeticMarks : List (List Nat) := [
  [837, 837, 867, 879, 1456, 1469, 1471, 1471, 1473, 1474, 1476, 1477, 1479, 1479, 1552, 1562, 1611,
   1623, 1625, 1631, 1648, 1648, 1750, 1756, 1761, 1764, 1767, 1768, 1773, 1773, 1809, 1809],
  [1840, 1855, 1958, 1968, 2070, 2071, 2075, 2083, 2085, 2087, 2089, 2092, 2199, 2199, 2260, 2271,
   2275, 2281, 2288, 2307, 2362, 2363, 2366, 2380, 2382, 2383, 2389, 2391, 2402, 2403, 2433, 2435],
  [2494, 2500, 2503, 2504, 2507, 2508, 2519, 2519, 2530, 2531, 2561, 2563, 2622, 2626, 2631, 2632,
   2635, 2636, 2641, 2641, 2672, 2673, 2677, 2677, 2689, 2691, 2750, 2757, 2759, 2761, 2763, 2764],
  [2786, 2787, 2810, 2812, 2817, 2819, 2878, 2884, 2887, 2888, 2891, 2892, 2902, 2903, 2914, 2915,
   2946, 2946, 3006, 3010, 3014, 3016, 3018, 3020, 3031, 3031, 3072, 3076, 3134, 3140, 3142, 3144],
  [3146, 3148, 3157, 3158, 3170, 3171, 3201, 3203, 3262, 3268, 3270, 3272, 3274, 3276, 3285, 3286,
   3298, 3299, 3315, 3315, 3328, 3331, 3390, 3396, 3398, 3400, 3402, 3404, 3415, 3415, 3426, 3427],
  [3457, 3459, 3535, 3540, 3542, 3542, 3544, 3551, 3570, 3571, 3633, 3633, 3636, 3642, 3661, 3661,
   3761, 3761, 3764, 3769, 3771, 3772, 3789, 3789, 3953, 3971, 3981, 3991, 3993, 4028, 4139, 4150],
  [4152, 4152, 4155, 4158, 4182, 4185, 4190, 4192, 4194, 4196, 4199, 4205, 4209, 4212, 4226, 4237,
   4239, 4239, 4250, 4253, 5906, 5907, 5938, 5939, 5970, 5971, 6002, 6003, 6070, 6088, 6277, 6278],
  [6313, 6313, 6432, 6443, 6448, 6456, 6679, 6683, 6741, 6750, 6753, 6772, 6847, 6848, 6860, 6862,
   6912, 6916, 6965, 6979, 7040, 7042, 7073, 7081, 7084, 7085, 7143, 7153, 7204, 7222, 7635, 7668],
  [9398, 9449, 11744, 11775, 42612, 42619, 42654, 42655, 43010, 43010, 43019, 43019, 43043, 43047,
   43136, 43137, 43188, 43203, 43205, 43205, 43263, 43263, 43302, 43306, 43335, 43346, 43392, 43395,
   43444, 43455, 43493, 43493],
  [43561, 43574, 43587, 43587, 43596, 43597, 43643, 43645, 43696, 43696, 43698, 43700, 43703, 43704,
   43710, 43710, 43755, 43759, 43765, 43765, 44003, 44010, 64286, 64286, 66422, 66426, 68097, 68099,
   68101, 68102, 68108, 68111],
  [68900, 68903, 68969, 68969, 69291, 69292, 69372, 69372, 69632, 69634, 69688, 69701, 69747, 69748,
   69760, 69762, 69808, 69816, 69826, 69826, 69888, 69890, 69927, 69938, 69957, 69958, 70016, 70018,
   70067, 70079, 70094, 70095],
  [70188, 70196, 70199, 70199, 70206, 70206, 70209, 70209, 70367, 70376, 70400, 70403, 70462, 70468,
   70471, 70472, 70475, 70476, 70487, 70487, 70498, 70499, 70584, 70592, 70594, 70594, 70597, 70597,
   70599, 70602, 70604, 70605],
  [70709, 70721, 70723, 70725, 70832, 70849, 71087, 71093, 71096, 71102, 71132, 71133, 71216, 71230,
   71232, 71232, 71339, 71349, 71453, 71466, 71724, 71736, 71984, 71989, 71991, 71992, 71995, 71996,
   72000, 72000, 72002, 72002],
  [72145, 72151, 72154, 72159, 72164, 72164, 72193, 72202, 72245, 72249, 72251, 72254, 72273, 72283,
   72330, 72343, 72751, 72758, 72760, 72766, 72850, 72871, 72873, 72886, 73009, 73014, 73018, 73018,
   73020, 73021, 73023, 73025],
  [73027, 73027, 73031, 73031, 73098, 73102, 73104, 73105, 73107, 73110, 73459, 73462, 73472, 73473,
   73475, 73475, 73524, 73530, 73534, 73536, 90398, 90414, 94031, 94031, 94033, 94087, 94095, 94098,
   94192, 94193, 113822, 113822],
  [122880, 122886, 122888, 122904, 122907, 122913, 122915, 122916, 122918, 122922, 123023, 123023,
   125255, 125255, 127280, 127305, 127312, 127337, 127344, 127369]]

def inRanges (n : Nat) : List Nat → Bool
  | low :: high :: rest => (low ≤ n && n ≤ high) || inRanges n rest
  | _ => false

def isWhite (c : Char) : Bool :=
  inRanges c.toNat [0x9, 0xd, 0x20, 0x20, 0x85, 0x85, 0xa0, 0xa0, 0x1680, 0x1680, 0x2000, 0x200a,
    0x2028, 0x2029, 0x202f, 0x202f, 0x205f, 0x205f, 0x3000, 0x3000]

namespace Category

def letters : List Category :=
  [.uppercaseLetter, .lowercaseLetter, .titlecaseLetter, .modifierLetter, .otherLetter]

def marks : List Category := [.nonspacingMark, .spacingMark, .enclosingMark]

def numbers : List Category := [.decimalNumber, .letterNumber, .otherNumber]

def punctuation : List Category :=
  [.connectorPunctuation, .dashPunctuation, .openPunctuation, .closePunctuation,
   .initialPunctuation, .finalPunctuation, .otherPunctuation]

def symbols : List Category := [.mathSymbol, .currencySymbol, .modifierSymbol, .otherSymbol]

def separators : List Category := [.spaceSeparator, .lineSeparator, .paragraphSeparator]

def others : List Category := [.control, .format, .surrogate, .privateUse, .unassigned]

end Category

def isDecimal (c : Char) : Bool := category c == .decimalNumber

def isAlphabetic (c : Char) : Bool :=
  Category.letters.contains (category c) || category c == .letterNumber
    || alphabeticMarks.any (inRanges c.toNat)

/-- The alphabetic characters that version 17 of the database added. -/
def laterLetters : List Nat :=
  [2191, 2191, 3164, 3164, 3292, 3292, 42958, 42959, 42962, 42962, 42964, 42964, 42993, 42993,
   67904, 67929, 69317, 69319, 69370, 69371, 72544, 72551, 73136, 73179, 93856, 93880, 93883,
   93907, 94194, 94198, 100344, 100351, 101641, 101662, 101760, 101874, 124608, 124638, 124640,
   124661, 124670, 124671, 177978, 177983, 183970, 183981, 205744, 210041]

def laterNumbers : List Nat := [73184, 73193]

def isNameLetter (c : Char) : Bool := isAlphabetic c || inRanges c.toNat laterLetters

def isNameAlphanumeric (c : Char) : Bool :=
  isNameLetter c || Category.numbers.contains (category c) || inRanges c.toNat laterNumbers

/-- Letters, marks, decimal numbers, connectors and the two joiners. -/
def isWord (c : Char) : Bool :=
  isAlphabetic c || Category.marks.contains (category c) || category c == .decimalNumber
    || category c == .connectorPunctuation || c == '\u200c' || c == '\u200d'

/-- The names of sets of categories, without spaces, case and punctuation. -/
def categoryNames : List (List String × List Category) :=
  [(["c", "other"], Category.others),
   (["cc", "control", "cntrl"], [.control]),
   (["cf", "format"], [.format]),
   (["cn", "unassigned"], [.unassigned]),
   (["co", "privateuse"], [.privateUse]),
   (["l", "letter"], Category.letters),
   (["lc", "casedletter"], [.uppercaseLetter, .lowercaseLetter, .titlecaseLetter]),
   (["ll", "lowercaseletter"], [.lowercaseLetter]),
   (["lm", "modifierletter"], [.modifierLetter]),
   (["lo", "otherletter"], [.otherLetter]),
   (["lt", "titlecaseletter"], [.titlecaseLetter]),
   (["lu", "uppercaseletter"], [.uppercaseLetter]),
   (["m", "mark", "combiningmark"], Category.marks),
   (["mc", "spacingmark"], [.spacingMark]),
   (["me", "enclosingmark"], [.enclosingMark]),
   (["mn", "nonspacingmark"], [.nonspacingMark]),
   (["n", "number"], Category.numbers),
   (["nd", "decimalnumber", "digit"], [.decimalNumber]),
   (["nl", "letternumber"], [.letterNumber]),
   (["no", "othernumber"], [.otherNumber]),
   (["p", "punctuation", "punct"], Category.punctuation),
   (["pc", "connectorpunctuation"], [.connectorPunctuation]),
   (["pd", "dashpunctuation"], [.dashPunctuation]),
   (["pe", "closepunctuation"], [.closePunctuation]),
   (["pf", "finalpunctuation"], [.finalPunctuation]),
   (["pi", "initialpunctuation"], [.initialPunctuation]),
   (["po", "otherpunctuation"], [.otherPunctuation]),
   (["ps", "openpunctuation"], [.openPunctuation]),
   (["s", "symbol"], Category.symbols),
   (["sc", "currencysymbol"], [.currencySymbol]),
   (["sk", "modifiersymbol"], [.modifierSymbol]),
   (["sm", "mathsymbol"], [.mathSymbol]),
   (["so", "othersymbol"], [.otherSymbol]),
   (["z", "separator"], Category.separators),
   (["zl", "lineseparator"], [.lineSeparator]),
   (["zp", "paragraphseparator"], [.paragraphSeparator]),
   (["zs", "spaceseparator"], [.spaceSeparator])]

/-- The name that is looked up: a leading "is", case, spaces, dashes and underscores do not
count. -/
def looseName (name : List Char) : String :=
  let simple (cs : List Char) : List Char :=
    (cs.filter fun c => c.toNat < 128 && !(c == ' ' || c == '_' || c == '-')).map Char.toLower
  match name with
  | i :: s :: rest =>
    if i.toLower == 'i' && s.toLower == 's' then
      -- a property of its own, not the category `c`
      if simple rest == ['c'] then "isc" else String.ofList (simple rest)
    else String.ofList (simple name)
  | _ => String.ofList (simple name)

def generalCategory? (name : String) : Option (Char → Bool) :=
  if name = "any" then some fun _ => true
  else if name = "assigned" then some fun c => category c != .unassigned
  else if name = "ascii" then some fun c => c.toNat < 128
  else
    (categoryNames.find? fun entry => entry.1.contains name).map fun entry c =>
      entry.2.contains (category c)

end JsonPath.Unicode
