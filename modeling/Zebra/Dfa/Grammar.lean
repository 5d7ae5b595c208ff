import Zebra.Dfa.Positions

/-!
# The language of a pattern

What a pattern means, told without the parser: how its characters make tokens, with escapes, quoted
parts and classes, and which words the tokens of each kind of expression denote.
-/

namespace Zebra.Dfa

/-- A string of the source: the characters up to its end. -/
def CString (s : List Byte) : Prop := ∀ b ∈ s, 0 < b ∧ b ≤ charsetSize

inductive Token where
  | char (c : Nat)
  | chars (set : Nat → Prop)
  | op (code : Lookahead)

def unquote (c : Nat) (ptr : List Byte) : Nat × List Byte :=
  if c = 1 then ((nextchar ptr).1, (nextchar ptr).2.2) else (c, ptr)

/-- A member of a class with what comes behind it; a hyphen that no character precedes stands behind
the least character, 1. -/
def classItem (c : Nat) (esc : Bool) (ptr : List Byte) : Nat × Nat × Bool × List Byte :=
  if esc = false ∧ c = 45 then (1, c, esc, ptr)
  else ((unquote c ptr).1, nextcharSet (unquote c ptr).2)

/-- `ClassFrom c esc ptr set rest`: from the character `c` on, in front of `ptr`, a class lists the
members `set` and ends in front of `rest`. -/
inductive ClassFrom : Nat → Bool → List Byte → (Nat → Prop) → List Byte → Prop
  | eos {esc ptr} : ClassFrom 0 esc ptr (fun _ => False) ptr
  | close {ptr} : ClassFrom 93 false ptr (fun _ => False) ptr
  | single {c esc ptr item next esc' ptr' set rest} : c ≠ 0 → ¬(esc = false ∧ c = 93) →
      classItem c esc ptr = (item, next, esc', ptr') → ¬(esc' = false ∧ next = 45) →
      ClassFrom next esc' ptr' set rest → ClassFrom c esc ptr (fun x => x = item ∨ set x) rest
  | range {c esc ptr item ptr' last esc' ptr'' set rest} : c ≠ 0 → ¬(esc = false ∧ c = 93) →
      classItem c esc ptr = (item, 45, false, ptr') →
      nextcharSet ptr' = (last, esc', ptr'') → last ≠ 0 → ¬(esc' = false ∧ last = 93) →
      ClassFrom (nextcharSet (unquote last ptr'').2).1 (nextcharSet (unquote last ptr'').2).2.1
        (nextcharSet (unquote last ptr'').2).2.2 set rest →
      ClassFrom c esc ptr
        (fun x => x = item ∨ (item ≤ x ∧ x ≤ (unquote last ptr'').1) ∨ set x) rest
  /-- A range whose end is the end of the class goes to the last character. -/
  | openRange {c esc ptr item ptr' rest} : c ≠ 0 → ¬(esc = false ∧ c = 93) →
      classItem c esc ptr = (item, 45, false, ptr') → nextcharSet ptr' = (93, false, rest) →
      ClassFrom c esc ptr (fun x => item ≤ x ∧ x ≤ charsetSize) rest
  | openEnd {c esc ptr item ptr' esc' rest} : c ≠ 0 → ¬(esc = false ∧ c = 93) →
      classItem c esc ptr = (item, 45, false, ptr') → nextcharSet ptr' = (0, esc', rest) →
      ClassFrom c esc ptr (fun x => x = item) rest

/-- A class in front of `ptr`, its bracket taken off. -/
inductive Class : List Byte → (Nat → Prop) → List Byte → Prop
  | plain {ptr c esc ptr' set rest} : nextcharSet ptr = (c, esc, ptr') → ¬(esc = false ∧ c = 94) →
      ClassFrom c esc ptr' set rest → Class ptr set rest
  | negated {ptr ptr' set rest} : nextcharSet ptr = (94, false, ptr') →
      ClassFrom (nextcharSet ptr').1 (nextcharSet ptr').2.1 (nextcharSet ptr').2.2 set rest →
      Class ptr (fun x => x ≤ charsetSize ∧ ¬set x) rest

/-- What a literal character means: the character 1 quotes the one behind it. -/
def literal (c : Nat) : List Byte → Nat × List Byte
  | [] => (c, [])
  | next :: rest => if c = 1 then (next, rest) else (c, next :: rest)

/-- `Reads inside ptr tok inside' rest`: the token `tok` comes next; `inside` tells whether the
place is within quotes. -/
inductive Reads : Bool → List Byte → Token → Bool → List Byte → Prop
  | quote {inside ptr ptr' tok inside' rest} : nextchar ptr = (34, false, ptr') →
      Reads (!inside) ptr' tok inside' rest → Reads inside ptr tok inside' rest
  /-- Escaped and quoted characters stand for themselves. -/
  | char {inside ptr c esc ptr'} : nextchar ptr = (c, esc, ptr') → c ≠ 0 →
      (esc = true ∨ (inside = true ∧ c ≠ 34)) →
      Reads inside ptr (.char (literal c ptr').1) inside (literal c ptr').2
  | chars {ptr ptr' set rest} : nextchar ptr = (91, false, ptr') → Class ptr' set rest →
      Reads false ptr (.chars set) false rest
  | op {ptr c ptr' code} : nextchar ptr = (c, false, ptr') → c ≠ 0 → c ≠ 34 → c ≠ 91 →
      thompsonChars.lookup c = some code → code ≠ .eos → Reads false ptr (.op code) false ptr'
  | plain {ptr c ptr'} : nextchar ptr = (c, false, ptr') → c ≠ 0 → c ≠ 34 → c ≠ 91 →
      thompsonChars.lookup c = none →
      Reads false ptr (.char (literal c ptr').1) false (literal c ptr').2

/-- The pattern ends here: at the end of the string, or at a blank outside of quotes. -/
inductive Ends : Bool → List Byte → Prop
  | quote {inside ptr ptr'} : nextchar ptr = (34, false, ptr') → Ends (!inside) ptr' →
      Ends inside ptr
  | eos {inside} : Ends inside []
  | blank {ptr c ptr'} : nextchar ptr = (c, false, ptr') → c ≠ 34 → c ≠ 91 →
      thompsonChars.lookup c = some .eos → Ends false ptr

inductive Tokens : Bool → List Byte → List Token → Prop
  | eos {inside ptr} : Ends inside ptr → Tokens inside ptr []
  | cons {inside ptr tok inside' rest toks} : Reads inside ptr tok inside' rest →
      Tokens inside' rest toks → Tokens inside ptr (tok :: toks)

def charsLang (set : Nat → Prop) : Language Letter :=
    {w : List Letter | ∃ c : Nat, set c ∧ w = [(c : Int)]}

/-- The kinds of expressions, by what binds tighter. -/
inductive Level where
  | alternatives
  | factors
  | repeated
  | atom
  deriving DecidableEq

/-- `Denotes anyset level toks l`: the tokens are an expression for the words of `l`. -/
inductive Denotes (anyset : BSet) : Level → List Token → Language Letter → Prop
  | char {c} : Denotes anyset .atom [.char c] (charsLang (· = c))
  | chars {set} : Denotes anyset .atom [.chars set] (charsLang set)
  | any : Denotes anyset .atom [.op .any] (charsLang (BSet.Mem anyset))
  | anyz : Denotes anyset .atom [.op .anyz] (charsLang (BSet.Mem anyset) + 1)
  | group {toks l} : Denotes anyset .alternatives toks l →
      Denotes anyset .atom (.op .lp :: toks ++ [.op .rp]) l
  | atom {toks l} : Denotes anyset .atom toks l → Denotes anyset .repeated toks l
  | clos0 {toks l} : Denotes anyset .atom toks l →
      Denotes anyset .repeated (toks ++ [.op .clos0]) (KStar.kstar l)
  | clos1 {toks l} : Denotes anyset .atom toks l →
      Denotes anyset .repeated (toks ++ [.op .clos1]) (l * KStar.kstar l)
  | quest {toks l} : Denotes anyset .atom toks l →
      Denotes anyset .repeated (toks ++ [.op .quest]) (l + 1)
  | repeated {toks l} : Denotes anyset .repeated toks l → Denotes anyset .factors toks l
  | cat {toks toks' l l'} : Denotes anyset .factors toks l → Denotes anyset .repeated toks' l' →
      Denotes anyset .factors (toks ++ toks') (l * l')
  | factors {toks l} : Denotes anyset .factors toks l → Denotes anyset .alternatives toks l
  | alt {toks toks' l l'} : Denotes anyset .alternatives toks l → Denotes anyset .factors toks' l' →
      Denotes anyset .alternatives (toks ++ .op .alt :: toks') (l + l')

/-- A whole pattern: an expression, which may have `^` in front of it and `$` behind it; the latter
is a newline, also without an expression. -/
inductive PatternLang (anyset : BSet) : List Token → Language Letter → Prop
  | expr {toks l} : Denotes anyset .alternatives toks l → PatternLang anyset toks l
  | line {toks l} : Denotes anyset .alternatives toks l →
      PatternLang anyset (toks ++ [.op .endAnchor]) (l * charsLang (· = 10))
  | newline : PatternLang anyset [.op .endAnchor] (charsLang (· = 10))

/-- The pattern denotes the words of `l`. -/
inductive PatternDenotes (anyset : BSet) (pattern : List Byte) (l : Language Letter) : Prop
  | plain {toks} : Tokens false pattern toks → PatternLang anyset toks l →
      PatternDenotes anyset pattern l
  | anchored {toks} : Tokens false pattern (.op .startAnchor :: toks) → PatternLang anyset toks l →
      PatternDenotes anyset pattern l

def ClassesInhabited (pattern : List Byte) : Prop :=
  ∀ toks, Tokens false pattern toks → ∀ set, Token.chars set ∈ toks → ∃ c, set c

end Zebra.Dfa
