import JsonPath.Name
import JsonPath.Reader.Literal

set_option autoImplicit false

/-!
# Spellings of queries

Which texts spell which trees, said without reference to how a text is read. A tree has many
spellings: blanks may stand at many places, names may be quoted or follow a dot, and the characters
of a string may be escaped. What a filter's condition looks like is a parameter, `condition`.
-/
namespace JsonPath.Spelling

/-- Spaces, tabs, line feeds and carriage returns, in any number. -/
def Blanks (b : List Char) : Prop := ∀ c ∈ b, c = ' ' ∨ c = '\t' ∨ c = '\n' ∨ c = '\r'

/-- The four hexadecimal digits of a 16-bit number, each in either case. -/
inductive OfUnit : Nat → List Char → Prop
  | digits {a b c d : Char} {w x y z : Nat} (ha : Digit.hexValue? a = some w)
      (hb : Digit.hexValue? b = some x) (hc : Digit.hexValue? c = some y)
      (hd : Digit.hexValue? d = some z) :
      OfUnit (((w * 16 + x) * 16 + y) * 16 + z) [a, b, c, d]

/-- The two surrogates that together stand for a code point beyond the 16-bit ones. -/
def highSurrogate (code : Nat) : Nat := 0xD800 + (code - 0x10000) / 0x400

def lowSurrogate (code : Nat) : Nat := 0xDC00 + (code - 0x10000) % 0x400

def shortForms : List (Char × Char) :=
  [('b', '\x08'), ('f', '\x0c'), ('n', '\n'), ('r', '\r'), ('t', '\t'), ('/', '/'), ('\\', '\\')]

/-- One character between quotes: itself, or one of its escapes. -/
inductive OfCharacter (mode : Mode) (quote : Char) : Char → List Char → Prop
  | itself {c : Char} (hc : ' ' ≤ c) (hq : c ≠ quote) (hb : c ≠ '\\') :
      OfCharacter mode quote c [c]
  | short {letter c : Char} (h : (letter, c) ∈ shortForms) :
      OfCharacter mode quote c ['\\', letter]
  | quotation {c : Char} (h : c = quote ∨ mode = .lenient ∧ (c = '\'' ∨ c = '"')) :
      OfCharacter mode quote c ['\\', c]
  | unit {c : Char} {t : List Char} (h : OfUnit c.toNat t) :
      OfCharacter mode quote c ('\\' :: 'u' :: t)
  | pair {c : Char} {high low : List Char} (hc : 0x10000 ≤ c.toNat)
      (hh : OfUnit (highSurrogate c.toNat) high) (hl : OfUnit (lowSurrogate c.toNat) low) :
      OfCharacter mode quote c ('\\' :: 'u' :: (high ++ '\\' :: 'u' :: low))

inductive OfCharacters (mode : Mode) (quote : Char) : List Char → List Char → Prop
  | nil : OfCharacters mode quote [] []
  | cons {c : Char} {cs t ts : List Char} (hc : OfCharacter mode quote c t)
      (hcs : OfCharacters mode quote cs ts) : OfCharacters mode quote (c :: cs) (t ++ ts)

inductive OfString (mode : Mode) : String → List Char → Prop
  | quoted {s : String} {t : List Char} (quote : Char) (hq : quote = '\'' ∨ quote = '"')
      (ht : OfCharacters mode quote s.toList t) : OfString mode s (quote :: (t ++ [quote]))

/-- A name that may follow a dot. -/
def Shorthand (mode : Mode) : List Char → Prop
  | [] => False
  | c :: rest =>
    Name.isFirst c = true ∧
      ∀ d ∈ rest, Name.isLater d = true ∨ mode = .lenient ∧ d = '-'

/-- A decimal integer of 64 bits. By the standard it has no needless zero or sign in front, and
floats represent it exactly. -/
inductive OfIndex (mode : Mode) : Int → List Char → Prop
  | decimal (negative : Bool) {ds : List Char} (nonempty : ds ≠ [])
      (digits : ∀ d ∈ ds, d.isDigit = true)
      (fits : Word.fits (Reader.signed negative ds) = true)
      (canonical : mode = .strict → ds.head? = some '0' → ds = ['0'] ∧ negative = false)
      (small : mode = .strict → (Reader.signed negative ds).natAbs ≤ Reader.maxExact) :
      OfIndex mode (Reader.signed negative ds) (Reader.signChars negative ++ ds)

/-- An integer that may be left out. -/
inductive OfBound (mode : Mode) : Option Int → List Char → Prop
  | absent : OfBound mode none []
  | present {i : Int} {t : List Char} (h : OfIndex mode i t) : OfBound mode (some i) t

/-- The step of a slice with the colon before it; without a step the colon may stand or not. -/
inductive OfStep (mode : Mode) : Option Int → List Char → Prop
  | absent : OfStep mode none []
  | colon {step : Option Int} {b b' t : List Char} (hb : Blanks b) (hb' : Blanks b')
      (ht : OfBound mode step t) : OfStep mode step (b ++ ':' :: (b' ++ t))

/-- One item or more, with commas between them and blanks around the commas. -/
inductive OfList {α : Type} (item : α → List Char → Prop) : List α → List Char → Prop
  | one {a : α} {t : List Char} (h : item a t) : OfList item [a] t
  | more {a : α} {as : List α} {t ts b b' : List Char} (h : item a t) (hb : Blanks b)
      (hb' : Blanks b') (hs : OfList item as ts) :
      OfList item (a :: as) (t ++ (b ++ ',' :: (b' ++ ts)))

section
variable (mode : Mode) (condition : Expr → List Char → Prop)

inductive OfSelector : Selector → List Char → Prop
  | wildcard : OfSelector .wildcard ['*']
  | member {name : String} {t : List Char} (h : OfString mode name t) :
      OfSelector (.member name) t
  | index {i : Int} {t : List Char} (h : OfIndex mode i t) : OfSelector (.index i) t
  | slice {start stop step : Option Int} {t t' t'' b b' : List Char} (ht : OfBound mode start t)
      (hb : Blanks b) (hb' : Blanks b') (ht' : OfBound mode stop t') (ht'' : OfStep mode step t'') :
      OfSelector (.slice start stop step) (t ++ (b ++ ':' :: (b' ++ (t' ++ t''))))
  | filter {e : Expr} {b t : List Char} (hb : Blanks b) (h : condition e t) :
      OfSelector (.filter e) ('?' :: (b ++ t))

inductive Bracketed : List Selector → List Char → Prop
  | list {ss : List Selector} {b t b' : List Char} (hb : Blanks b)
      (h : OfList (OfSelector mode condition) ss t) (hb' : Blanks b') :
      Bracketed ss ('[' :: (b ++ (t ++ (b' ++ [']']))))

inductive Dotted : List Selector → List Char → Prop
  | wildcard : Dotted [.wildcard] ['*']
  | name {name : String} (h : Shorthand mode name.toList) : Dotted [.member name] name.toList

inductive OfSegment : Segment → List Char → Prop
  | bracket {ss : List Selector} {t : List Char} (h : Bracketed mode condition ss t) :
      OfSegment (.children ss) t
  | dot {ss : List Selector} {t : List Char} (h : Dotted mode ss t) :
      OfSegment (.children ss) ('.' :: t)
  | dotsBracket {ss : List Selector} {t : List Char} (h : Bracketed mode condition ss t) :
      OfSegment (.descendants ss) ('.' :: '.' :: t)
  | dots {ss : List Selector} {t : List Char} (h : Dotted mode ss t) :
      OfSegment (.descendants ss) ('.' :: '.' :: t)

inductive OfSegments : List Segment → List Char → Prop
  | nil : OfSegments [] []
  | cons {s : Segment} {ss : List Segment} {b t ts : List Char} (hb : Blanks b)
      (h : OfSegment mode condition s t) (hs : OfSegments ss ts) :
      OfSegments (s :: ss) (b ++ (t ++ ts))

/-- A whole query. Lenient mode allows blanks around it. -/
inductive OfPath : Path → List Char → Prop
  | root {segments : List Segment} {b t b' : List Char} (hb : Blanks b) (hb' : Blanks b')
      (h : OfSegments mode condition segments t) (bare : mode = .strict → b = [] ∧ b' = []) :
      OfPath ⟨.root, segments⟩ (b ++ '$' :: (t ++ b'))

end
end JsonPath.Spelling
