/-
# What the reader takes is in the relaxed grammar

Each function of the reader that ends well has read a phrase of the dialect
`lax`, and returns what the phrase denotes: the leaves first, then by
induction on the fuel the three functions that call each other
(`reads_value`), and the document (`document_of_parse`).
-/
import Mathlib.Data.List.TakeWhile
import Siphon.Lib.Fallible
import Siphon.Pyjson.Grammar

namespace Siphon
namespace Pyjson

open Fallible

/-! ### White space, literals, digits -/

theorem ws_reads (cs : List Char) : Ws cs (ws cs) := by
  induction cs with
  | nil => exact .nil []
  | cons c cs ih =>
    unfold ws
    by_cases hc : isWs c = true
    · rw [List.dropWhile_cons_of_pos hc]
      exact .cons hc ih
    · rw [List.dropWhile_cons_of_neg hc]
      exact .nil _

theorem eat_eq_ok {n : ℕ} {c : Char} {cs r : List Char} (h : eat n c cs = .ok r) : cs = c :: r := by
  cases cs with
  | nil => cases h
  | cons d cs =>
    rw [eat] at h
    by_cases hd : d = c
    · rw [if_pos hd] at h
      cases h
      rw [hd]
    · rw [if_neg hd] at h
      cases h

theorem lit_eq_ok {n : ℕ} {s cs r : List Char} (h : lit n s cs = .ok r) : cs = s ++ r := by
  unfold lit at h
  by_cases hp : s <+: cs
  · rw [if_pos hp] at h
    cases h
    exact (List.prefix_iff_eq_append.mp hp).symm
  · rw [if_neg hp] at h
    cases h

/-! ### Escapes -/

theorem bytes_cons (c : Char) (cs : List Char) : bytes (c :: cs) = c.utf8Size + bytes cs := by
  unfold bytes
  rw [Utf8.encode_cons, List.length_append, String.length_utf8EncodeChar]

theorem bytes_append (s t : List Char) : bytes (s ++ t) = bytes s + bytes t := by
  unfold bytes
  rw [Utf8.encode_append, List.length_append]

theorem takeBytes_eq_some {n : ℕ} {cs s r : List Char} (h : takeBytes n cs = some (s, r)) :
    cs = s ++ r ∧ bytes s = n := by
  induction cs generalizing n s with
  | nil =>
    cases n with
    | zero =>
      cases h
      exact ⟨rfl, rfl⟩
    | succ n => cases h
  | cons c cs ih =>
    cases n with
    | zero =>
      cases h
      exact ⟨rfl, rfl⟩
    | succ n =>
      unfold takeBytes at h
      by_cases hc : c.utf8Size ≤ n + 1
      · rw [if_pos hc, Option.map_eq_some_iff] at h
        obtain ⟨p, hp, he⟩ := h
        cases he
        obtain ⟨h1, h2⟩ := ih hp
        refine ⟨by rw [h1]; rfl, ?_⟩
        rw [bytes_cons]
        omega
      · rw [if_neg hc] at h
        cases h

theorem utf8Size_of_ascii {c : Char} (h : c.toNat < 128) : c.utf8Size = 1 := by
  rw [Char.utf8Size_eq_one_iff]
  exact UInt32.le_iff_toNat_le.mpr (Nat.lt_succ_iff.mp h)

theorem ascii_of_hexVal {c : Char} {d : ℕ} (h : hexVal c = some d) : c.toNat < 128 := by
  have hle : ∀ {a b : Char}, a ≤ b → a.toNat ≤ b.toNat := fun h => h
  unfold hexVal at h
  split_ifs at h with h1 h2 h3
  · exact lt_of_le_of_lt (hle h1.2) (by decide)
  · exact lt_of_le_of_lt (hle h2.2) (by decide)
  · exact lt_of_le_of_lt (hle h3.2) (by decide)

theorem bytes_of_hexDigits {cs : List Char} : ∀ {acc v : ℕ}, hexDigits acc cs = some v →
    bytes cs = cs.length := by
  induction cs with
  | nil =>
    intro _ _ _
    rfl
  | cons c cs ih =>
    intro acc v h
    unfold hexDigits at h
    obtain ⟨d, hd, h⟩ := Option.bind_eq_some_iff.mp h
    rw [bytes_cons, utf8Size_of_ascii (ascii_of_hexVal hd), ih h, List.length_cons, Nat.add_comm]

theorem hexVal_plus : hexVal '+' = none := by decide

/-- The text that `from_str_radix` reads in four bytes. -/
theorem hex4_of_fromStrRadix {s : List Char} {v : ℕ} (h : fromStrRadix s = some v) (hb : bytes s = 4) :
    Hex4 lax s v := by
  unfold fromStrRadix at h
  split at h
  · cases h
  · cases h
  · next cs _ =>
    rw [bytes_cons, bytes_of_hexDigits h, utf8Size_of_ascii (by decide)] at hb
    exact .inr ⟨rfl, cs, rfl, by omega, h⟩
  · rw [bytes_of_hexDigits h] at hb
    exact .inl ⟨hb, h⟩

theorem hex4_eq_ok {cs r : List Char} {v : ℕ} (h : hex4 cs = .ok (v, r)) :
    ∃ ds, cs = ds ++ r ∧ Hex4 lax ds v := by
  unfold hex4 at h
  by_cases hb : bytes cs < 4
  · rw [if_pos hb] at h
    cases h
  rw [if_neg hb] at h
  split at h
  · cases h
  · next s rest hs =>
    obtain ⟨h1, h2⟩ := takeBytes_eq_some hs
    split at h
    · cases h
    · next w hw =>
      cases h
      exact ⟨s, h1, hex4_of_fromStrRadix hw h2⟩

theorem toNat_of_charFromU32 {n : ℕ} {c : Char} (h : charFromU32 n = some c) : c.toNat = n := by
  obtain ⟨hv, h⟩ := Option.dite_none_right_eq_some.mp h
  rw [← Option.some.inj h]
  rfl

theorem surrogatePair_eq_ok {hi lo : ℕ} {c : Char} (h : surrogatePair hi lo = .ok c) :
    0xdc00 ≤ lo ∧ lo < 0xe000 ∧ c.toNat = 0x10000 + (hi - 0xd800) * 1024 + (lo - 0xdc00) := by
  unfold surrogatePair at h
  by_cases hlo : 0xdc00 ≤ lo ∧ lo < 0xe000
  · rw [if_pos hlo] at h
    exact ⟨hlo.1, hlo.2, toNat_of_charFromU32 (orElse_eq_ok h)⟩
  · rw [if_neg hlo] at h
    cases h

theorem lowSurrogate_eq_ok {n hi : ℕ} {cs r : List Char} {c : Char} (h : lowSurrogate n hi cs = .ok (c, r)) :
    ∃ ds lo, cs = '\\' :: 'u' :: (ds ++ r) ∧ Hex4 lax ds lo ∧ surrogatePair hi lo = .ok c := by
  unfold lowSurrogate at h
  obtain ⟨cs₁, h1, h⟩ := bind_eq_ok h
  obtain ⟨⟨lo, cs₂⟩, h2, h⟩ := bind_eq_ok h
  obtain ⟨d, h3, h⟩ := bind_eq_ok h
  obtain ⟨ds, hcs, hds⟩ := hex4_eq_ok h2
  obtain ⟨rfl, rfl⟩ : d = c ∧ cs₂ = r := by simpa using h
  exact ⟨ds, lo, (lit_eq_ok h1).trans (by rw [hcs]; rfl), hds, h3⟩

theorem chars_unicodeEscape {n : ℕ} {cs rest s r : List Char} {c : Char}
    (h : unicodeEscape n cs = .ok (c, rest)) (hc : Chars lax s rest r) :
    Chars lax (c :: s) ('\\' :: 'u' :: cs) r := by
  unfold unicodeEscape at h
  obtain ⟨⟨hi, cs₁⟩, h1, h⟩ := bind_eq_ok h
  obtain ⟨ds, hcs, hds⟩ := hex4_eq_ok h1
  dsimp only at h
  by_cases hsur : 0xd800 ≤ hi ∧ hi < 0xdc00
  · rw [if_pos hsur] at h
    obtain ⟨ls, lo, hcs₁, hls, hp⟩ := lowSurrogate_eq_ok h
    obtain ⟨h2, h3, h4⟩ := surrogatePair_eq_ok hp
    rw [hcs, hcs₁]
    exact .pair hds hls hsur.1 hsur.2 h2 h3 h4 hc
  · rw [if_neg hsur] at h
    obtain ⟨d, h2, h⟩ := bind_eq_ok h
    obtain ⟨rfl, rfl⟩ : d = c ∧ cs₁ = rest := by simpa using h
    rw [hcs]
    exact .unicode ((toNat_of_charFromU32 (orElse_eq_ok h2)).symm ▸ hds) hc

theorem chars_stringLoop {n : ℕ} : ∀ (fuel : ℕ) {out cs s r : List Char},
    stringLoop n fuel out cs = .ok (s, r) → ∃ s', s = out ++ s' ∧ Chars lax s' cs r := by
  intro fuel
  induction fuel with
  | zero =>
    intro out cs s r h
    cases h
  | succ fuel ih =>
    intro out cs s r h
    -- one more character, then the rest of the loop
    have more : ∀ {c : Char} {t : List Char}, stringLoop n fuel (out ++ [c]) t = .ok (s, r) →
        ∃ s', s = out ++ c :: s' ∧ Chars lax s' t r := by
      intro c t h
      obtain ⟨s', rfl, hs'⟩ := ih h
      exact ⟨s', by simp, hs'⟩
    cases cs with
    | nil => cases h
    | cons c cs =>
      unfold stringLoop at h
      by_cases hq : c = '"'
      · rw [if_pos hq] at h
        cases h
        exact ⟨[], by simp, hq ▸ .close r⟩
      rw [if_neg hq] at h
      by_cases hb : c = '\\'
      · rw [if_pos hb] at h
        subst hb
        cases cs with
        | nil => cases h
        | cons e cs =>
          simp only at h
          by_cases hu : e = 'u'
          · rw [if_pos hu] at h
            subst hu
            obtain ⟨⟨d, t⟩, h1, h⟩ := bind_eq_ok h
            obtain ⟨s', hs, hs'⟩ := more h
            exact ⟨d :: s', hs, chars_unicodeEscape h1 hs'⟩
          · rw [if_neg hu] at h
            split at h
            · next d hd =>
              obtain ⟨s', hs, hs'⟩ := more h
              exact ⟨d :: s', hs, .escape hd hs'⟩
            · cases h
      · rw [if_neg hb] at h
        obtain ⟨s', hs, hs'⟩ := more h
        exact ⟨c :: s', hs, .raw hq hb (.inl rfl) hs'⟩

theorem chars_string {n : ℕ} {cs s r : List Char} (h : string n cs = .ok (s, r)) :
    ∃ t, cs = '"' :: t ∧ Chars lax s t r := by
  unfold string at h
  obtain ⟨t, h1, h⟩ := bind_eq_ok h
  obtain ⟨s', rfl, hs'⟩ := chars_stringLoop _ h
  exact ⟨t, eat_eq_ok h1, hs'⟩

/-! ### Numbers -/

theorem fraction_eq_ok {n : ℕ} {cs r : List Char} {frac : Option (List Char)}
    (h : fraction n cs = .ok (frac, r)) :
    cs = (frac.elim [] fun ds => '.' :: ds) ++ r ∧ frac ≠ some [] ∧ ∀ ds ∈ frac, ∀ c ∈ ds, isDigit c := by
  unfold fraction at h
  split at h
  · next cs =>
    by_cases hd : cs.takeWhile isDigit = []
    · rw [if_pos hd] at h
      cases h
    · rw [if_neg hd] at h
      cases h
      refine ⟨?_, fun he => hd (Option.some_inj.mp he), ?_⟩
      · simp
      · intro ds hds c hc
        cases hds
        exact List.mem_takeWhile_imp hc
  · cases h
    exact ⟨rfl, by simp, by simp⟩

/-- The form of an exponent. -/
structure ExponentOk (exp : Option (Char × List Char × List Char)) : Prop where
  letter : ∀ x ∈ exp, x.1 = 'e' ∨ x.1 = 'E'
  sign : ∀ x ∈ exp, x.2.1 = [] ∨ x.2.1 = ['+'] ∨ x.2.1 = ['-']
  ne : ∀ x ∈ exp, x.2.2 ≠ []
  digits : ∀ x ∈ exp, ∀ c ∈ x.2.2, isDigit c

theorem exponentDigits_eq_ok {n : ℕ} {e : Char} {sign cs r : List Char}
    {exp : Option (Char × List Char × List Char)} (he : e = 'e' ∨ e = 'E')
    (hs : sign = [] ∨ sign = ['+'] ∨ sign = ['-']) (h : exponentDigits n e sign cs = .ok (exp, r)) :
    e :: sign ++ cs = (exp.elim [] fun x => x.1 :: x.2.1 ++ x.2.2) ++ r ∧ ExponentOk exp := by
  unfold exponentDigits at h
  by_cases hd : cs.takeWhile isDigit = []
  · rw [if_pos hd] at h
    cases h
  · rw [if_neg hd] at h
    cases h
    refine ⟨by simp, ?_, ?_, ?_, ?_⟩
    · rintro x ⟨⟩
      exact he
    · rintro x ⟨⟩
      exact hs
    · rintro x ⟨⟩
      exact hd
    · rintro x ⟨⟩ c hc
      exact List.mem_takeWhile_imp hc

theorem exponent_eq_ok {n : ℕ} {cs r : List Char} {exp : Option (Char × List Char × List Char)}
    (h : exponent n cs = .ok (exp, r)) :
    cs = (exp.elim [] fun x => x.1 :: x.2.1 ++ x.2.2) ++ r ∧ ExponentOk exp := by
  have none_ok : ExponentOk none := ⟨by simp, by simp, by simp, by simp⟩
  unfold exponent at h
  split at h
  · next e cs =>
    by_cases he : e = 'e' ∨ e = 'E'
    · rw [if_pos he] at h
      split at h
      · exact exponentDigits_eq_ok he (.inr (.inl rfl)) h
      · exact exponentDigits_eq_ok he (.inr (.inr rfl)) h
      · exact exponentDigits_eq_ok he (.inl rfl) h
    · rw [if_neg he] at h
      cases h
      exact ⟨rfl, none_ok⟩
  · cases h
    exact ⟨rfl, none_ok⟩

theorem numberValue_eq_ok {t : NumberText} {v : Value} (h : numberValue t = .ok v) :
    t.Denotes lax v ∧ (t.int = [] → t.frac.isSome ∨ t.exp.isSome) := by
  unfold numberValue at h
  simp only at h
  by_cases h1 : t.int = [] ∧ ¬(t.frac.isSome ∨ t.exp.isSome)
  · rw [if_pos h1] at h
    cases h
  rw [if_neg h1] at h
  have hne : t.int = [] → t.frac.isSome ∨ t.exp.isSome := fun hi => not_not.mp fun hn => h1 ⟨hi, hn⟩
  by_cases h2 : t.frac.isSome ∨ t.exp.isSome
  · rw [if_pos h2] at h
    split at h
    · next x hx =>
      cases h
      exact ⟨.float h2 hx (.inl rfl), hne⟩
    · cases h
  · rw [if_neg h2] at h
    rw [not_or, Bool.not_eq_true, Bool.not_eq_true, Option.isSome_eq_false_iff,
      Option.isSome_eq_false_iff, Option.isNone_iff_eq_none, Option.isNone_iff_eq_none] at h2
    split at h
    · next i hi =>
      cases h
      exact ⟨.int h2.1 h2.2 hi, hne⟩
    · cases h

theorem toFloat_int_ne {t : NumberText} {x : Binary64} (h : t.toFloat = some x) :
    t.int ≠ [] ∨ t.frac.getD [] ≠ [] := by
  unfold NumberText.toFloat at h
  by_contra hc
  rw [not_or, not_not, not_not] at hc
  rw [if_pos hc] at h
  cases h

/-- A number of the reader; a number without digits before its point has come
with a sign. -/
theorem reads_numberDigits {n : ℕ} {neg : Bool} {cs r : List Char} {v : Value}
    (h : numberDigits n neg cs = .ok (v, r)) (hneg : neg = true ∨ cs.takeWhile isDigit ≠ []) :
    Reads lax (.value v) ((if neg then ['-'] else []) ++ cs) r := by
  unfold numberDigits at h
  simp only at h
  by_cases hz : 1 < (cs.takeWhile isDigit).length ∧ (cs.takeWhile isDigit).head? = some '0'
  · rw [if_pos hz] at h
    cases h
  rw [if_neg hz] at h
  obtain ⟨⟨frac, cs₁⟩, h1, h⟩ := bind_eq_ok h
  obtain ⟨⟨exp, cs₂⟩, h2, h⟩ := bind_eq_ok h
  obtain ⟨w, h3, h⟩ := bind_eq_ok h
  obtain ⟨rfl, rfl⟩ : w = v ∧ cs₂ = r := by simpa using h
  simp only at h2 h3
  obtain ⟨e1, hf1, hf2⟩ := fraction_eq_ok h1
  obtain ⟨e2, hexp⟩ := exponent_eq_ok h2
  obtain ⟨hden, hfloat⟩ := numberValue_eq_ok h3
  have hok : NumberText.Ok lax ⟨neg, cs.takeWhile isDigit, frac, exp⟩ :=
    { int_digits := fun c hc => List.mem_takeWhile_imp hc
      int_zero := fun hl hh => hz ⟨hl, hh⟩
      int_ne := by
        rw [or_iff_not_imp_left, not_not]
        intro hi
        refine ⟨rfl, hneg.resolve_right (not_not.mpr hi), ?_⟩
        cases hden with
        | int h4 h5 _ =>
          rcases hfloat hi with h6 | h6
          · exact h6
          · rw [h5] at h6
            cases h6
        | float _ hx _ =>
          have := (toFloat_int_ne hx).resolve_left (not_not.mpr hi)
          cases hfr : frac with
          | none => rw [hfr] at this; exact absurd rfl this
          | some ds => rfl
      frac_ne := hf1
      frac_digits := hf2
      exp_letter := hexp.letter
      exp_sign := hexp.sign
      exp_ne := hexp.ne
      exp_digits := hexp.digits }
  have htext : (if neg then ['-'] else []) ++ cs =
      NumberText.text ⟨neg, cs.takeWhile isDigit, frac, exp⟩ ++ cs₂ := by
    simp only [NumberText.text, List.append_assoc]
    rw [← e2, ← e1, List.takeWhile_append_dropWhile]
  rw [htext]
  exact .number cs₂ hok hden

theorem reads_number {n : ℕ} {c : Char} {cs r : List Char} {v : Value} (hc : c = '-' ∨ isDigit c)
    (h : number n (c :: cs) = .ok (v, r)) : Reads lax (.value v) (c :: cs) r := by
  by_cases hm : c = '-'
  · subst hm
    exact reads_numberDigits h (.inl rfl)
  · have hnum : number n (c :: cs) = numberDigits n false (c :: cs) := by
      unfold number
      split
      · next he => exact absurd (List.cons.inj he).1 hm
      · rfl
    rw [hnum] at h
    apply reads_numberDigits h
    rw [List.takeWhile_cons_of_pos (hc.resolve_left hm)]
    exact .inr (by simp)

/-! ### Values -/

theorem Ws.trans {t u r : List Char} (h : Ws t u) (h' : Ws u r) : Ws t r := by
  induction h with
  | nil => exact h'
  | cons hc _ ih => exact .cons hc (ih h')

theorem Reads.ws_elements {D : Dialect} {vs : List Value} {t u r : List Char} (hw : Ws t u)
    (h : Reads D (.elements vs) u r) : Reads D (.elements vs) t r := by
  cases h with
  | lastElement h1 h2 h3 => exact .lastElement (hw.trans h1) h2 h3
  | element h1 h2 h3 h4 => exact .element (hw.trans h1) h2 h3 h4

theorem Reads.ws_member {D : Dialect} {k : List Char} {v : Value} {t u r : List Char} (hw : Ws t u)
    (h : Reads D (.member k v) u r) : Reads D (.member k v) t r := by
  cases h with
  | keyValue h1 h2 h3 h4 h5 => exact .keyValue (hw.trans h1) h2 h3 h4 h5

theorem Reads.ws_members {D : Dialect} {kvs : List (List Char × Value)} {t u r : List Char} (hw : Ws t u)
    (h : Reads D (.members kvs) u r) : Reads D (.members kvs) t r := by
  cases h with
  | lastMember h1 h2 => exact .lastMember (h1.ws_member hw) h2
  | memberList h1 h2 h3 => exact .memberList (h1.ws_member hw) h2 h3

/-- What the three functions have read, at a given fuel. -/
structure ReadsAt (n fuel : ℕ) : Prop where
  value : ∀ {cs r : List Char} {v : Value}, value n fuel cs = .ok (v, r) → Reads lax (.value v) cs r
  object : ∀ {kv : List (List Char × Value)} {cs r : List Char} {v : Value},
    object n fuel kv cs = .ok (v, r) → ∃ kvs, v = .object (kv ++ kvs) ∧ Reads lax (.members kvs) cs ('}' :: r)
  array : ∀ {a : List Value} {cs r : List Char} {v : Value},
    array n fuel a cs = .ok (v, r) → ∃ vs, v = .array (a ++ vs) ∧ Reads lax (.elements vs) cs (']' :: r)

theorem ReadsAt.array_succ {n fuel : ℕ} (ih : ReadsAt n fuel) {a : List Value} {cs r : List Char} {v : Value}
    (h : Pyjson.array n (fuel + 1) a cs = .ok (v, r)) :
    ∃ vs, v = .array (a ++ vs) ∧ Reads lax (.elements vs) cs (']' :: r) := by
  rw [Pyjson.array] at h
  obtain ⟨⟨w, cs₁⟩, h1, h⟩ := bind_eq_ok h
  have hv := ih.value h1
  have hws := ws_reads cs₁
  dsimp only at h
  split at h
  · next cs₂ he =>
    obtain ⟨vs, rfl, hvs⟩ := ih.array h
    rw [he] at hws
    exact ⟨w :: vs, by simp, .element (ws_reads cs) hv hws hvs⟩
  · next cs₂ he =>
    cases h
    rw [he] at hws
    exact ⟨[w], rfl, .lastElement (ws_reads cs) hv hws⟩
  · cases h

theorem ReadsAt.object_succ {n fuel : ℕ} (ih : ReadsAt n fuel) {kv : List (List Char × Value)}
    {cs r : List Char} {v : Value} (h : Pyjson.object n (fuel + 1) kv cs = .ok (v, r)) :
    ∃ kvs, v = .object (kv ++ kvs) ∧ Reads lax (.members kvs) cs ('}' :: r) := by
  rw [Pyjson.object] at h
  obtain ⟨⟨k, cs₁⟩, h1, h⟩ := bind_eq_ok h
  obtain ⟨cs₂, h2, h⟩ := bind_eq_ok h
  obtain ⟨⟨w, cs₃⟩, h3, h⟩ := bind_eq_ok h
  obtain ⟨t, ht, hk⟩ := chars_string h1
  have hmem : Reads lax (.member k w) cs cs₃ :=
    .keyValue (ht ▸ ws_reads cs) hk (eat_eq_ok h2 ▸ ws_reads cs₁) (ws_reads cs₂) (ih.value h3)
  have hws := ws_reads cs₃
  dsimp only at h
  split at h
  · next cs₄ he =>
    obtain ⟨kvs, rfl, hkvs⟩ := ih.object h
    rw [he] at hws
    exact ⟨(k, w) :: kvs, by simp, .memberList hmem hws hkvs⟩
  · next cs₄ he =>
    cases h
    rw [he] at hws
    exact ⟨[(k, w)], rfl, .lastMember hmem hws⟩
  · cases h

theorem ReadsAt.value_succ {n fuel : ℕ} (ih : ReadsAt n fuel) {cs r : List Char} {v : Value}
    (h : Pyjson.value n (fuel + 1) cs = .ok (v, r)) : Reads lax (.value v) cs r := by
  cases cs with
  | nil => cases h
  | cons c cs =>
    rw [Pyjson.value] at h
    have hws := ws_reads cs
    by_cases h1 : c = '{'
    · rw [if_pos h1] at h
      subst h1
      split at h
      · next cs₁ he =>
        cases h
        rw [he] at hws
        exact .objectEmpty hws
      · obtain ⟨kvs, rfl, hk⟩ := ih.object h
        exact .object (hk.ws_members hws)
    rw [if_neg h1] at h
    by_cases h2 : c = '['
    · rw [if_pos h2] at h
      subst h2
      split at h
      · next cs₁ he =>
        cases h
        rw [he] at hws
        exact .arrayEmpty hws
      · obtain ⟨vs, rfl, hv⟩ := ih.array h
        exact .array (hv.ws_elements hws)
    rw [if_neg h2] at h
    by_cases h3 : c = '"'
    · rw [if_pos h3] at h
      obtain ⟨⟨s, cs₁⟩, hs, h⟩ := bind_eq_ok h
      cases h
      obtain ⟨t, ht, hc⟩ := chars_string hs
      rw [ht]
      exact .string hc
    rw [if_neg h3] at h
    by_cases h4 : c = 't'
    · rw [if_pos h4] at h
      obtain ⟨cs₁, hl, h⟩ := bind_eq_ok h
      cases h
      rw [lit_eq_ok hl]
      exact .true r
    rw [if_neg h4] at h
    by_cases h5 : c = 'f'
    · rw [if_pos h5] at h
      obtain ⟨cs₁, hl, h⟩ := bind_eq_ok h
      cases h
      rw [lit_eq_ok hl]
      exact .false r
    rw [if_neg h5] at h
    by_cases h6 : c = 'n'
    · rw [if_pos h6] at h
      obtain ⟨cs₁, hl, h⟩ := bind_eq_ok h
      cases h
      rw [lit_eq_ok hl]
      exact .null r
    rw [if_neg h6] at h
    by_cases h7 : c = '-' ∨ isDigit c
    · rw [if_pos h7] at h
      exact reads_number h7 h
    · rw [if_neg h7] at h
      cases h

/-- What is read is a phrase of the relaxed grammar. -/
theorem readsAt (n fuel : ℕ) : ReadsAt n fuel := by
  induction fuel with
  | zero => exact ⟨fun h => (by cases h), fun h => (by cases h), fun h => (by cases h)⟩
  | succ fuel ih => exact ⟨ih.value_succ, ih.object_succ, ih.array_succ⟩

/-- A text that is accepted is a document of the relaxed grammar. -/
theorem document_of_parse {t : List Char} {v : Value} (h : parse t = .ok v) : Document lax t v := by
  unfold parse at h
  obtain ⟨⟨w, cs⟩, h1, h⟩ := bind_eq_ok h
  dsimp only at h
  have hws := ws_reads cs
  split at h
  · next he =>
    cases h
    exact ⟨_, cs, ws_reads t, (readsAt _ _).value h1, he ▸ hws⟩
  · cases h

end Pyjson
end Siphon
