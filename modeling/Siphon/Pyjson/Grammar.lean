/-
# The grammar of JSON

`Reads D item t r`: the text `t` is a phrase for `item`, followed by `r`.
`Document D t v` says that a whole text is a document that denotes `v`. The
grammar is that of RFC 8259, with the numbers in the form
`-?(0|[1-9][0-9]*)(.[0-9]+)?([eE][+-]?[0-9]+)?`; an integer has to fit an
`i128`, and a number with a fraction or an exponent denotes the nearest
number of the format.

A `Dialect` says where a grammar is wider or narrower than that: the grammar
of the RFC lets an escape of a lone surrogate stand in a string (`rfc`),
although it is no character; `paired` leaves these out. `lax` is what the
reader takes.
-/
import Siphon.Pyjson.Model

namespace Siphon
namespace Pyjson

/-- Where a grammar differs from that of the RFC. -/
structure Dialect where
  /-- Raw control characters may stand in a string. -/
  control : Bool
  /-- A sign `+` may stand before three digits of an escape. -/
  plus : Bool
  /-- A negative fraction may have no digits before the point. -/
  bare : Bool
  /-- What the escape of a lone surrogate stands for, if it may stand. -/
  lone : Option Char
  /-- A number may be too large for the format. -/
  infinite : Bool

/-- The grammar of RFC 8259. -/
def rfc : Dialect := ⟨false, false, false, some '\uFFFD', true⟩

/-- RFC 8259 without lone surrogates. -/
def paired : Dialect := ⟨false, false, false, none, true⟩

/-- With the three relaxations. -/
def lax : Dialect := ⟨true, true, true, none, true⟩

/-- The relaxed grammar with numbers that fit the format only. -/
def laxFinite : Dialect := ⟨true, true, true, none, false⟩

/-- White space before a rest. -/
inductive Ws : List Char → List Char → Prop
  | nil (r : List Char) : Ws r r
  | cons {c : Char} {t r : List Char} : isWs c → Ws t r → Ws (c :: t) r

/-- The four digits of an escape. -/
def Hex4 (D : Dialect) (h : List Char) (v : ℕ) : Prop :=
  (h.length = 4 ∧ hexDigits 0 h = some v) ∨
    (D.plus ∧ ∃ ds, h = '+' :: ds ∧ ds.length = 3 ∧ hexDigits 0 ds = some v)

/-- What stands in a string, up to the closing quote. -/
inductive Chars (D : Dialect) : List Char → List Char → List Char → Prop
  | close (r : List Char) : Chars D [] ('"' :: r) r
  | raw {c : Char} {s t r : List Char} : c ≠ '"' → c ≠ '\\' → (D.control ∨ 0x20 ≤ c.toNat) →
      Chars D s t r → Chars D (c :: s) (c :: t) r
  | escape {e c : Char} {s t r : List Char} : escapeOf e = some c →
      Chars D s t r → Chars D (c :: s) ('\\' :: e :: t) r
  | unicode {h : List Char} {c : Char} {s t r : List Char} : Hex4 D h c.toNat →
      Chars D s t r → Chars D (c :: s) ('\\' :: 'u' :: (h ++ t)) r
  | pair {h l : List Char} {hi lo : ℕ} {c : Char} {s t r : List Char} : Hex4 D h hi → Hex4 D l lo →
      0xd800 ≤ hi → hi < 0xdc00 → 0xdc00 ≤ lo → lo < 0xe000 →
      c.toNat = 0x10000 + (hi - 0xd800) * 1024 + (lo - 0xdc00) →
      Chars D s t r → Chars D (c :: s) ('\\' :: 'u' :: (h ++ '\\' :: 'u' :: (l ++ t))) r
  | lone {h : List Char} {v : ℕ} {c : Char} {s t r : List Char} : D.lone = some c → Hex4 D h v →
      0xd800 ≤ v → v < 0xe000 → Chars D s t r → Chars D (c :: s) ('\\' :: 'u' :: (h ++ t)) r

/-- The form of a number. -/
structure NumberText.Ok (D : Dialect) (t : NumberText) : Prop where
  int_digits : ∀ c ∈ t.int, isDigit c
  int_zero : 1 < t.int.length → t.int.head? ≠ some '0'
  int_ne : t.int ≠ [] ∨ (D.bare ∧ t.neg ∧ t.frac.isSome)
  frac_ne : t.frac ≠ some []
  frac_digits : ∀ ds ∈ t.frac, ∀ c ∈ ds, isDigit c
  exp_letter : ∀ x ∈ t.exp, x.1 = 'e' ∨ x.1 = 'E'
  exp_sign : ∀ x ∈ t.exp, x.2.1 = [] ∨ x.2.1 = ['+'] ∨ x.2.1 = ['-']
  exp_ne : ∀ x ∈ t.exp, x.2.2 ≠ []
  exp_digits : ∀ x ∈ t.exp, ∀ c ∈ x.2.2, isDigit c

/-- The value of a number. -/
inductive NumberText.Denotes (D : Dialect) (t : NumberText) : Value → Prop
  | int {i : ℤ} : t.frac = none → t.exp = none → t.toInt = some i → Denotes D t (.int i)
  | float {x : Binary64} : (t.frac.isSome ∨ t.exp.isSome) → t.toFloat = some x →
      (D.infinite ∨ x.isFinite) → Denotes D t (.float x)

/-- What a phrase may be for. -/
inductive Item where
  | value (v : Value)
  | elements (vs : List Value)
  | member (k : List Char) (v : Value)
  | members (kvs : List (List Char × Value))

/-- The phrases, with what follows. -/
inductive Reads (D : Dialect) : Item → List Char → List Char → Prop
  | null (r : List Char) : Reads D (.value .null) ('n' :: 'u' :: 'l' :: 'l' :: r) r
  | true (r : List Char) : Reads D (.value (.bool true)) ('t' :: 'r' :: 'u' :: 'e' :: r) r
  | false (r : List Char) : Reads D (.value (.bool false)) ('f' :: 'a' :: 'l' :: 's' :: 'e' :: r) r
  | number {t : NumberText} {v : Value} (r : List Char) : t.Ok D → t.Denotes D v →
      Reads D (.value v) (t.text ++ r) r
  | string {s t r : List Char} : Chars D s t r → Reads D (.value (.str s)) ('"' :: t) r
  | arrayEmpty {t r : List Char} : Ws t (']' :: r) → Reads D (.value (.array [])) ('[' :: t) r
  | array {vs : List Value} {t r : List Char} : Reads D (.elements vs) t (']' :: r) →
      Reads D (.value (.array vs)) ('[' :: t) r
  | objectEmpty {t r : List Char} : Ws t ('}' :: r) → Reads D (.value (.object [])) ('{' :: t) r
  | object {kvs : List (List Char × Value)} {t r : List Char} : Reads D (.members kvs) t ('}' :: r) →
      Reads D (.value (.object kvs)) ('{' :: t) r
  | lastElement {v : Value} {t u w r : List Char} : Ws t u → Reads D (.value v) u w → Ws w r →
      Reads D (.elements [v]) t r
  | element {v : Value} {vs : List Value} {t u w x r : List Char} : Ws t u → Reads D (.value v) u w →
      Ws w (',' :: x) → Reads D (.elements vs) x r → Reads D (.elements (v :: vs)) t r
  | keyValue {k : List Char} {v : Value} {t u w x y r : List Char} : Ws t ('"' :: u) → Chars D k u w →
      Ws w (':' :: x) → Ws x y → Reads D (.value v) y r → Reads D (.member k v) t r
  | lastMember {k : List Char} {v : Value} {t w r : List Char} : Reads D (.member k v) t w → Ws w r →
      Reads D (.members [(k, v)]) t r
  | memberList {k : List Char} {v : Value} {kvs : List (List Char × Value)} {t w x r : List Char} :
      Reads D (.member k v) t w → Ws w (',' :: x) → Reads D (.members kvs) x r →
      Reads D (.members ((k, v) :: kvs)) t r

/-- A whole text is a document for a value. -/
def Document (D : Dialect) (t : List Char) (v : Value) : Prop :=
  ∃ u w, Ws t u ∧ Reads D (.value v) u w ∧ Ws w []

/-! ### Dialects -/

/-- What `D` lets stand, `E` does. -/
structure Dialect.Le (D E : Dialect) : Prop where
  control : D.control → E.control
  plus : D.plus → E.plus
  bare : D.bare → E.bare
  lone : ∀ c, D.lone = some c → E.lone = some c
  infinite : D.infinite → E.infinite

theorem paired_le_lax : paired.Le lax := ⟨by simp [paired], by simp [paired], by simp [paired],
  by simp [paired], by simp [lax]⟩

theorem laxFinite_le_lax : laxFinite.Le lax := ⟨by simp [lax], by simp [lax], by simp [lax],
  by simp [laxFinite], by simp [lax]⟩

section Mono

variable {D E : Dialect}

theorem Hex4.mono (h : D.Le E) {ds : List Char} {v : ℕ} (hx : Hex4 D ds v) : Hex4 E ds v :=
  hx.imp id fun ⟨hp, hd⟩ => ⟨h.plus hp, hd⟩

theorem Chars.mono (h : D.Le E) {s t r : List Char} (hc : Chars D s t r) : Chars E s t r := by
  induction hc with
  | close r => exact .close r
  | raw h1 h2 h3 _ ih => exact .raw h1 h2 (h3.imp_left h.control) ih
  | escape h1 _ ih => exact .escape h1 ih
  | unicode h1 _ ih => exact .unicode (h1.mono h) ih
  | pair h1 h2 h3 h4 h5 h6 h7 _ ih => exact .pair (h1.mono h) (h2.mono h) h3 h4 h5 h6 h7 ih
  | lone h1 h2 h3 h4 _ ih => exact .lone (h.lone _ h1) (h2.mono h) h3 h4 ih

theorem NumberText.Ok.mono (h : D.Le E) {t : NumberText} (ht : t.Ok D) : t.Ok E :=
  { ht with int_ne := ht.int_ne.imp id fun ⟨hb, hr⟩ => ⟨h.bare hb, hr⟩ }

theorem NumberText.Denotes.mono (h : D.Le E) {t : NumberText} {v : Value} (ht : t.Denotes D v) :
    t.Denotes E v := by
  cases ht with
  | int h1 h2 h3 => exact .int h1 h2 h3
  | float h1 h2 h3 => exact .float h1 h2 (h3.imp_left h.infinite)

theorem Reads.mono (h : D.Le E) {i : Item} {t r : List Char} (hr : Reads D i t r) : Reads E i t r := by
  induction hr with
  | null r => exact .null r
  | true r => exact .true r
  | false r => exact .false r
  | number r h1 h2 => exact .number r (h1.mono h) (h2.mono h)
  | string h1 => exact .string (h1.mono h)
  | arrayEmpty h1 => exact .arrayEmpty h1
  | array _ ih => exact .array ih
  | objectEmpty h1 => exact .objectEmpty h1
  | object _ ih => exact .object ih
  | lastElement h1 _ h3 ih => exact .lastElement h1 ih h3
  | element h1 _ h3 _ ih ih' => exact .element h1 ih h3 ih'
  | keyValue h1 h2 h3 h4 _ ih => exact .keyValue h1 (h2.mono h) h3 h4 ih
  | lastMember _ h2 ih => exact .lastMember ih h2
  | memberList _ h2 _ ih ih' => exact .memberList ih h2 ih'

/-- A document stays one in a wider dialect. -/
theorem Document.mono (h : D.Le E) {t : List Char} {v : Value} (hd : Document D t v) : Document E t v := by
  obtain ⟨u, w, h1, h2, h3⟩ := hd
  exact ⟨u, w, h1, h2.mono h, h3⟩

end Mono

end Pyjson
end Siphon
