/-
# The pre-tokenizer of the Qwen models

`gdn/src/tokenizer.rs` splits a text with a scanner written by hand, one
function for each alternative of the documented pattern; a text is the list
of its characters, and the pieces are byte ranges. The scanner comes first,
then the pattern as a regular expression (`pattern`), with the general
categories as predicates. `pretokenizeWith_eq_findAll` says that the ranges
are those of the matches of the pattern, taken from the left.
-/
import Siphon.Lib.Regex
import Siphon.Lib.Utf8

namespace Siphon
namespace Qwen

open Regex Utf8

/-- `is_letter`, `is_mark` and `is_number`, which look a character up in the
generated tables. -/
structure Categories where
  isLetter : Char → Bool
  isMark : Char → Bool
  isNumber : Char → Bool

variable (t : Categories)

/-! ### The scanner -/

def isNewline (x : Char) : Bool := x == '\r' || x == '\n'

/-- `while j < n && p(c[j]) { j += 1 }` -/
def skipFrom (p : Char → Bool) (cs : List Char) : ℕ → ℕ → ℕ
  | 0, j => j
  | fuel + 1, j => if (cs[j]?).any p then skipFrom p cs fuel (j + 1) else j

/-- Where the loop ends that starts at `j`. -/
def skip (p : Char → Bool) (cs : List Char) (j : ℕ) : ℕ := skipFrom p cs (cs.length - j) j

/-- The end of a contraction whose quote is at `i`, from the characters behind
it in lower case. -/
def contractionEnd (i : ℕ) (after : Option Char) : Char → Option ℕ
  | 's' => some (i + 2)
  | 't' => some (i + 2)
  | 'm' => some (i + 2)
  | 'd' => some (i + 2)
  | 'r' => if after = some 'e' then some (i + 3) else none
  | 'v' => if after = some 'e' then some (i + 3) else none
  | 'l' => if after = some 'l' then some (i + 3) else none
  | _ => none

/-- `match_contraction` -/
def matchContraction (cs : List Char) (i : Fin cs.length) : Option ℕ :=
  if cs[i] ≠ '\'' then none
  else (cs[i.val + 1]?).bind fun next => contractionEnd i ((cs[i.val + 2]?).map Char.toLower) next.toLower

/-- The letters of alternative 2, and the marks if they join. -/
def isLm (marksJoin : Bool) (x : Char) : Bool := t.isLetter x || (marksJoin && t.isMark x)

/-- What may stand before them. -/
def isLead (x : Char) : Bool := x != '\r' && x != '\n' && !t.isLetter x && !t.isNumber x

/-- `match_letters` -/
def matchLetters (cs : List Char) (i : Fin cs.length) (marksJoin : Bool) : Option ℕ :=
  if isLead t cs[i] && (cs[i.val + 1]?).any (isLm t marksJoin) then some (skip (isLm t marksJoin) cs (i + 1))
  else if isLm t marksJoin cs[i] then some (skip (isLm t marksJoin) cs i)
  else none

/-- The symbols of alternative 4. -/
def isSym (marksJoin : Bool) (x : Char) : Bool :=
  !isWhiteSpace x && !t.isLetter x && !t.isNumber x && !(marksJoin && t.isMark x)

/-- `match_symbols` -/
def matchSymbols (cs : List Char) (i : Fin cs.length) (marksJoin : Bool) : Option ℕ :=
  let start := if cs[i] = ' ' then i.val + 1 else i.val
  if !(cs[start]?).any (isSym t marksJoin) then none
  else some (skip isNewline cs (skip (isSym t marksJoin) cs start))

/-- `match_ws_then_newline` -/
def matchWsThenNewline (cs : List Char) (i : Fin cs.length) : Option ℕ :=
  if !isWhiteSpace cs[i] then none
  else
    let k := skip isWhiteSpace cs i
    ((List.range' i (k - i)).reverse.find? fun x => (cs[x]?).any isNewline).map (skip isNewline cs)

/-- `match_ws_lookahead` -/
def matchWsLookahead (cs : List Char) (i : Fin cs.length) : Option ℕ :=
  if !isWhiteSpace cs[i] then none
  else
    let k := skip isWhiteSpace cs i
    if k = cs.length then some k
    else if i + 2 ≤ k then some (k - 1)
    else none

/-- `match_whitespace` -/
def matchWhitespace (cs : List Char) (i : Fin cs.length) : Option ℕ :=
  if !isWhiteSpace cs[i] then none else some (skip isWhiteSpace cs i)

/-- The alternatives in order. -/
def firstAlternative (cs : List Char) (i : Fin cs.length) (marksJoin : Bool) : Option ℕ :=
  (matchContraction cs i).or ((matchLetters t cs i marksJoin).or
    ((if t.isNumber cs[i] then some (i.val + 1) else none).or
    ((matchSymbols t cs i marksJoin).or
    ((matchWsThenNewline cs i).or
    ((matchWsLookahead cs i).or
    (matchWhitespace cs i))))))

/-- `match_alternative` -/
def matchAlternative (cs : List Char) (i : Fin cs.length) (marksJoin : Bool) : ℕ :=
  (firstAlternative t cs i marksJoin).getD (i + 1)

/-- `char_indices` -/
def charIndices : ℕ → List Char → List (ℕ × Char)
  | _, [] => []
  | off, x :: s => (off, x) :: charIndices (off + x.utf8Size) s

/-- The loop of `pretokenize_with`. -/
def pretokenizeFrom (marksJoin : Bool) (text : List Char) : ℕ → ℕ → List (ℕ × ℕ)
  | 0, _ => []
  | fuel + 1, i =>
    if h : i < text.length then
      let j := max (min (matchAlternative t text ⟨i, h⟩ marksJoin) text.length) (i + 1)
      let chars := charIndices 0 text
      let offset k := ((chars[k]?).map (·.1)).getD (encode text).length
      (offset i, offset j) :: pretokenizeFrom marksJoin text fuel j
    else []

/-- `pretokenize_with` -/
def pretokenizeWith (text : List Char) (marksJoin : Bool) : List (ℕ × ℕ) :=
  pretokenizeFrom t marksJoin text text.length 0

/-! ### The pattern -/

/-- A character up to ASCII case. -/
def folded (x : Char) : Re Char := .one fun y => y.toLower == x

/-- `(?i:'s|'t|'re|'ve|'m|'ll|'d)` -/
def contractions : Re Char :=
  let quoted r := Re.seq (folded '\'') r
  .alt (quoted (folded 's')) (.alt (quoted (folded 't')) (.alt (quoted (.seq (folded 'r') (folded 'e')))
    (.alt (quoted (.seq (folded 'v') (folded 'e'))) (.alt (quoted (folded 'm'))
    (.alt (quoted (.seq (folded 'l') (folded 'l'))) (quoted (folded 'd')))))))

/-- `[^\r\n\p{L}\p{N}]?[\p{L}\p{M}]+`, or with `\p{L}+` where marks do not join. -/
def letters (marksJoin : Bool) : Re Char :=
  .seq (.opt (.one fun x => !(x == '\r' || x == '\n' || t.isLetter x || t.isNumber x)))
    (.plus (.one fun x => t.isLetter x || (marksJoin && t.isMark x)))

/-- ` ?[^\s\p{L}\p{M}\p{N}]+[\r\n]*`, or without `\p{M}`. -/
def symbols (marksJoin : Bool) : Re Char :=
  .seq (.opt (.one (· == ' ')))
    (.seq (.plus (.one fun x => !(isWhiteSpace x || t.isLetter x || (marksJoin && t.isMark x) || t.isNumber x)))
      (.star (.one fun x => x == '\r' || x == '\n')))

/-- `\s*[\r\n]+` -/
def newlines : Re Char := .seq (.star (.one isWhiteSpace)) (.plus (.one fun x => x == '\r' || x == '\n'))

/-- `\s+(?!\S)` -/
def trailing : Re Char := .seq (.plus (.one isWhiteSpace)) (.notAhead (.one fun x => !isWhiteSpace x))

/-- `PRETOKENIZE_REGEX_WITH_MARKS`, or `PRETOKENIZE_REGEX_NO_MARKS`. -/
def pattern (marksJoin : Bool) : Re Char :=
  .alt contractions (.alt (letters t marksJoin) (.alt (.one t.isNumber) (.alt (symbols t marksJoin)
    (.alt newlines (.alt trailing (.plus (.one isWhiteSpace)))))))

/-! ### Loops of the scanner -/

section Skip

variable {p : Char → Bool} {cs : List Char} {j : ℕ}

theorem skipFrom_eq : ∀ (fuel j : ℕ), cs.length - j ≤ fuel →
    cs.drop (skipFrom p cs fuel j) = (cs.drop j).dropWhile p ∧ j ≤ skipFrom p cs fuel j
  | 0, j, h => by
    rw [skipFrom, List.drop_eq_nil_of_le (by omega)]
    exact ⟨rfl, Nat.le_refl j⟩
  | fuel + 1, j, h => by
    rw [skipFrom]
    by_cases hj : j < cs.length
    · rw [List.drop_eq_getElem_cons hj, List.getElem?_eq_getElem hj, Option.any_some]
      by_cases hp : p cs[j]
      · rw [if_pos hp, List.dropWhile_cons_of_pos hp]
        obtain ⟨h1, h2⟩ := skipFrom_eq fuel (j + 1) (by omega)
        exact ⟨h1, by omega⟩
      · rw [if_neg hp, List.dropWhile_cons_of_neg hp, List.drop_eq_getElem_cons hj]
        exact ⟨rfl, Nat.le_refl j⟩
    · have hnil : cs.drop j = [] := List.drop_eq_nil_of_le (by omega)
      rw [List.getElem?_eq_none (by omega), hnil]
      exact ⟨hnil, Nat.le_refl j⟩

theorem drop_skip : cs.drop (skip p cs j) = (cs.drop j).dropWhile p := (skipFrom_eq _ j (Nat.le_refl _)).1

theorem le_skip : j ≤ skip p cs j := (skipFrom_eq _ j (Nat.le_refl _)).2

theorem skip_of_pos (hj : j < cs.length) (h : p cs[j]) : skip p cs j = skip p cs (j + 1) := by
  unfold skip
  rw [show cs.length - j = cs.length - (j + 1) + 1 by omega, skipFrom, List.getElem?_eq_getElem hj, Option.any_some,
    if_pos h]

theorem skip_of_neg (hj : j < cs.length) (h : ¬ p cs[j]) : skip p cs j = j := by
  unfold skip
  rw [show cs.length - j = cs.length - (j + 1) + 1 by omega, skipFrom, List.getElem?_eq_getElem hj, Option.any_some,
    if_neg h]

theorem skip_of_length_le (hj : cs.length ≤ j) : skip p cs j = j := by
  unfold skip
  rw [Nat.sub_eq_zero_of_le hj, skipFrom]

/-- `p+` is the loop, entered only at a character it takes. -/
theorem first_plus_drop : (Re.plus (.one p)).first (cs.drop j) =
    if (cs[j]?).any p then some (cs.drop (skip p cs j)) else none := by
  by_cases hj : j < cs.length
  · rw [List.drop_eq_getElem_cons hj, Re.first_plus_one_cons, List.getElem?_eq_getElem hj, Option.any_some]
    by_cases hp : p cs[j]
    · rw [if_pos hp, if_pos hp, skip_of_pos hj hp, drop_skip]
    · rw [if_neg hp, if_neg hp]
  · rw [List.drop_eq_nil_of_le (by omega), List.getElem?_eq_none (by omega)]
    rfl

end Skip

/-! ### Each alternative -/

/-- A matcher of the scanner does at `i` what an expression does there, and it
takes something. -/
structure Reads (r : Re Char) (cs : List Char) (i : ℕ) (m : Option ℕ) : Prop where
  first : r.first (cs.drop i) = m.map cs.drop
  lt : ∀ j, m = some j → i < j

theorem Reads.alt {r q : Re Char} {cs : List Char} {i : ℕ} {m m' : Option ℕ} (h : Reads r cs i m)
    (h' : Reads q cs i m') : Reads (.alt r q) cs i (m.or m') := by
  constructor
  · rw [Re.first_alt, h.first, h'.first]
    cases m <;> rfl
  · intro j hj
    cases m with
    | none => exact h'.lt j hj
    | some k => exact h.lt j hj

variable {t} {cs : List Char} (i : Fin cs.length) {marksJoin : Bool}

theorem drop_eq_cons : cs.drop i = cs[i] :: cs.drop (i + 1) := List.drop_eq_getElem_cons i.isLt

theorem getElem?_eq : cs[i.val]? = some cs[i] := List.getElem?_eq_getElem i.isLt

theorem lt_skip {p : Char → Bool} (h : p cs[i]) : i < skip p cs i := by
  rw [skip_of_pos i.isLt h]
  exact le_skip

theorem reads_letters : Reads (letters t marksJoin) cs i (matchLetters t cs i marksJoin) := by
  have hlead : (fun x => !(x == '\r' || x == '\n' || t.isLetter x || t.isNumber x)) = isLead t := by
    funext x
    unfold isLead
    simp only [Bool.not_or]
    rfl
  have hlm : (fun x => t.isLetter x || (marksJoin && t.isMark x)) = isLm t marksJoin := rfl
  unfold matchLetters
  constructor
  · unfold letters
    rw [hlead, hlm, Re.first_opt_seq, first_plus_drop, drop_eq_cons, Re.first_one_seq_cons, first_plus_drop,
      getElem?_eq, Option.any_some]
    generalize isLead t cs[i] = lead
    generalize isLm t marksJoin cs[i] = here
    generalize (cs[i.val + 1]?).any (isLm t marksJoin) = next
    cases lead <;> cases here <;> cases next <;> rfl
  · intro j hj
    split_ifs at hj with h1 h2
    · obtain rfl := Option.some.inj hj
      exact le_skip
    · obtain rfl := Option.some.inj hj
      exact lt_skip i h2

theorem reads_number : Reads (.one t.isNumber) cs i (if t.isNumber cs[i] then some (i.val + 1) else none) := by
  constructor
  · rw [drop_eq_cons, Re.first_one_cons]
    split_ifs <;> rfl
  · intro j hj
    split_ifs at hj
    obtain rfl := Option.some.inj hj
    exact Nat.lt_succ_self _

theorem isNewline_eq : (fun x => x == '\r' || x == '\n') = isNewline := rfl

theorem isWhiteSpace_of_isNewline {x : Char} (h : isNewline x) : isWhiteSpace x := by
  unfold isNewline at h
  rw [Bool.or_eq_true, beq_iff_eq, beq_iff_eq] at h
  obtain rfl | rfl := h <;> rfl

/-- The run of symbols and the newlines behind it. -/
theorem first_symbols_drop (j : ℕ) :
    (Re.seq (.plus (.one (isSym t marksJoin))) (.star (.one isNewline))).first (cs.drop j) =
      if (cs[j]?).any (isSym t marksJoin) then some (cs.drop (skip isNewline cs (skip (isSym t marksJoin) cs j)))
      else none := by
  by_cases hj : j < cs.length
  · rw [List.drop_eq_getElem_cons hj, List.getElem?_eq_getElem hj, Option.any_some]
    rw [Re.first_plus_seq, Re.first_star_star, drop_skip, drop_skip]
    by_cases hp : isSym t marksJoin cs[j]
    · rw [if_pos hp, if_pos hp, List.drop_eq_getElem_cons hj, List.dropWhile_cons_of_pos hp]
    · rw [if_neg hp, if_neg hp]
  · rw [List.drop_eq_nil_of_le (by omega), List.getElem?_eq_none (by omega)]
    rfl

theorem reads_symbols : Reads (symbols t marksJoin) cs i (matchSymbols t cs i marksJoin) := by
  have hsym : (fun x => !(isWhiteSpace x || t.isLetter x || (marksJoin && t.isMark x) || t.isNumber x)) =
      isSym t marksJoin := by
    funext x
    unfold isSym
    simp only [Bool.not_or]
    ac_rfl
  have hspace : ∀ x, x = ' ' → isSym t marksJoin x = false := by
    rintro x rfl
    rfl
  unfold matchSymbols
  constructor
  · unfold symbols
    rw [hsym, isNewline_eq, Re.first_opt_seq, first_symbols_drop, drop_eq_cons, Re.first_one_seq_cons,
      first_symbols_drop, getElem?_eq, Option.any_some]
    by_cases h : cs[i] = ' '
    · rw [if_pos h, hspace _ h, if_pos (beq_iff_eq.mpr h)]
      dsimp only
      generalize (cs[i.val + 1]?).any (isSym t marksJoin) = next
      cases next <;> rfl
    · rw [if_neg h, if_neg fun he => h (beq_iff_eq.mp he)]
      dsimp only
      rw [getElem?_eq, Option.any_some]
      generalize isSym t marksJoin cs[i] = here
      cases here <;> rfl
  · intro j hj
    dsimp only at hj
    split_ifs at hj with h1 h2 h3
    · obtain rfl := Option.some.inj hj
      exact Nat.le_trans le_skip le_skip
    · obtain rfl := Option.some.inj hj
      rw [getElem?_eq, Option.any_some, Bool.not_eq_true, Bool.not_eq_false'] at h3
      exact Nat.lt_of_lt_of_le (lt_skip i h3) le_skip

theorem reads_whitespace : Reads (.plus (.one isWhiteSpace)) cs i (matchWhitespace cs i) := by
  unfold matchWhitespace
  constructor
  · rw [first_plus_drop, getElem?_eq, Option.any_some]
    cases isWhiteSpace cs[i] <;> rfl
  · intro j hj
    split_ifs at hj with h
    obtain rfl := Option.some.inj hj
    rw [Bool.not_eq_true, Bool.not_eq_false'] at h
    exact lt_skip i h

/-- The last newline of a run of white space, from any place in it. -/
theorem first_newlines_drop : ∀ (n j : ℕ), cs.length - j = n → newlines.first (cs.drop j) =
    ((List.range' j (skip isWhiteSpace cs j - j)).reverse.find? fun x => (cs[x]?).any isNewline).map
      fun k => cs.drop (skip isNewline cs k)
  | 0, j, h => by
    rw [List.drop_eq_nil_of_le (by omega), skip_of_length_le (by omega), Nat.sub_self]
    rfl
  | n + 1, j, h => by
    have hj : j < cs.length := by omega
    have ih := first_newlines_drop n (j + 1) (by omega)
    unfold newlines at ih ⊢
    rw [isNewline_eq] at ih ⊢
    have hplus : (Re.plus (.one isNewline)).first (cs.drop j) =
        if isNewline cs[j] then some (cs.drop (skip isNewline cs j)) else none := by
      rw [first_plus_drop, List.getElem?_eq_getElem hj, Option.any_some]
    rw [List.drop_eq_getElem_cons hj, Re.first_star_seq, ← List.drop_eq_getElem_cons hj, ih, hplus]
    by_cases hp : isWhiteSpace cs[j]
    · have hle : j + 1 ≤ skip isWhiteSpace cs (j + 1) := le_skip
      rw [if_pos hp, skip_of_pos hj hp,
        show skip isWhiteSpace cs (j + 1) - j = skip isWhiteSpace cs (j + 1) - (j + 1) + 1 by omega,
        List.range'_succ, List.reverse_cons, List.find?_append, List.find?_singleton, List.getElem?_eq_getElem hj,
        Option.any_some, Option.map_or]
      congr 1
      split_ifs <;> rfl
    · have hn : ¬ isNewline cs[j] := fun hn => hp (isWhiteSpace_of_isNewline hn)
      rw [if_neg hp, if_neg hn, skip_of_neg hj hp, Nat.sub_self]
      rfl

theorem reads_newlines : Reads newlines cs i (matchWsThenNewline cs i) := by
  unfold matchWsThenNewline
  constructor
  · rw [first_newlines_drop _ i rfl]
    by_cases h : isWhiteSpace cs[i]
    · rw [h, Bool.not_true, if_neg Bool.false_ne_true, Option.map_map]
      rfl
    · rw [skip_of_neg i.isLt h, Nat.sub_self, Bool.eq_false_iff.mpr h]
      rfl
  · intro j hj
    split_ifs at hj with h
    obtain ⟨k, hk, rfl⟩ := Option.map_eq_some_iff.mp hj
    have hmem := List.mem_of_find?_eq_some hk
    rw [List.mem_reverse, List.mem_range'_1] at hmem
    have hnl : (cs[k]?).any isNewline := List.find?_some (p := fun x => (cs[x]?).any isNewline) hk
    have hkc : k < cs.length := by
      by_contra hge
      rw [List.getElem?_eq_none (by omega)] at hnl
      cases hnl
    rw [List.getElem?_eq_getElem hkc, Option.any_some] at hnl
    exact Nat.lt_of_le_of_lt hmem.1 (lt_skip ⟨k, hkc⟩ hnl)

/-- A run of white space that no other character may follow: all of it at the
end of the text, else all but the last character. -/
theorem first_trailing_drop : ∀ (n j : ℕ), cs.length - j = n → j ≤ cs.length →
    (Re.seq (.star (.one isWhiteSpace)) (.notAhead (.one fun x => !isWhiteSpace x))).first (cs.drop j) =
      (if skip isWhiteSpace cs j = cs.length then some cs.length
        else if j + 1 ≤ skip isWhiteSpace cs j then some (skip isWhiteSpace cs j - 1) else none).map cs.drop
  | 0, j, h, hle => by
    obtain rfl : j = cs.length := by omega
    rw [List.drop_length, skip_of_length_le (Nat.le_refl _), if_pos rfl, Option.map_some, List.drop_length]
    rfl
  | n + 1, j, h, hle => by
    have hj : j < cs.length := by omega
    have ih := first_trailing_drop n (j + 1) (by omega) hj
    have hahead : (Re.notAhead (.one fun x => !isWhiteSpace x)).first (cs.drop j) =
        if isWhiteSpace cs[j] then some (cs.drop j) else none := by
      rw [Re.first_notAhead, List.drop_eq_getElem_cons hj, Re.first_one_cons]
      cases isWhiteSpace cs[j] <;> rfl
    rw [List.drop_eq_getElem_cons hj, Re.first_star_seq, ← List.drop_eq_getElem_cons hj, ih, hahead]
    by_cases hp : isWhiteSpace cs[j]
    · have hle : j + 1 ≤ skip isWhiteSpace cs (j + 1) := le_skip
      rw [if_pos hp, if_pos hp, skip_of_pos hj hp]
      by_cases hend : skip isWhiteSpace cs (j + 1) = cs.length
      · rw [if_pos hend, if_pos hend]
        rfl
      · rw [if_neg hend, if_neg hend, if_pos hle]
        by_cases hmore : j + 1 + 1 ≤ skip isWhiteSpace cs (j + 1)
        · rw [if_pos hmore]
          rfl
        · rw [if_neg hmore, show skip isWhiteSpace cs (j + 1) - 1 = j by omega]
          rfl
    · rw [if_neg hp, if_neg hp, skip_of_neg hj hp, if_neg (by omega), if_neg (by omega)]
      rfl

theorem reads_trailing : Reads trailing cs i (matchWsLookahead cs i) := by
  unfold matchWsLookahead
  constructor
  · unfold trailing
    rw [drop_eq_cons, Re.first_plus_seq, first_trailing_drop _ (i + 1) rfl i.isLt]
    by_cases h : isWhiteSpace cs[i]
    · rw [h, if_pos rfl, Bool.not_true, if_neg Bool.false_ne_true, skip_of_pos i.isLt h]
      dsimp only
      congr 1
      split_ifs with hend <;> simp_all
    · rw [Bool.eq_false_iff.mpr h]
      rfl
  · intro j hj
    dsimp only at hj
    split_ifs at hj with h h1 h2
    · obtain rfl := Option.some.inj hj
      rw [Bool.not_eq_true, Bool.not_eq_false'] at h
      exact lt_skip i h
    · have hj' := Option.some.inj hj
      omega

/-- Only the quote folds to a quote. -/
theorem toLower_beq_quote (x : Char) : (x.toLower == '\'') = decide (x = '\'') := by
  unfold Char.toLower
  by_cases h : x.val ≥ 'A'.val ∧ x.val ≤ 'Z'.val
  · have h1 : 65 ≤ x.val.toNat ∧ x.val.toNat ≤ 90 := ⟨h.1, h.2⟩
    have hx : x ≠ '\'' := by
      rintro rfl
      exact absurd h1.1 (by decide)
    rw [dif_pos h, decide_eq_false hx, beq_eq_false_iff_ne]
    intro he
    have hv : (x.val + ('a'.val - 'A'.val)).toNat = 39 := congrArg (fun y : Char => y.val.toNat) he
    rw [UInt32.toNat_add, show ('a'.val - 'A'.val).toNat = 32 from rfl] at hv
    omega
  · rw [dif_neg h]
    rfl

theorem lt_contractionEnd {i j : ℕ} {after : Option Char} {x : Char} (h : contractionEnd i after x = some j) :
    i < j := by
  revert h
  fun_cases contractionEnd i after x <;> intro h <;> cases h <;> omega

/-- The alternatives of a contraction behind the quote. -/
theorem contractionEnd_eq {i : ℕ} {x : Char} {s : List Char} (hs : cs.drop (i + 2) = s) :
    (contractionEnd i (s.head?.map Char.toLower) x.toLower).map cs.drop =
      (if x.toLower == 's' then some s else none).or ((if x.toLower == 't' then some s else none).or
      ((if x.toLower == 'r' then (folded 'e').first s else none).or
      ((if x.toLower == 'v' then (folded 'e').first s else none).or
      ((if x.toLower == 'm' then some s else none).or
      ((if x.toLower == 'l' then (folded 'l').first s else none).or
      (if x.toLower == 'd' then some s else none)))))) := by
  have hs3 : cs.drop (i + 3) = s.tail := by rw [← List.tail_drop, hs]
  have hfold : ∀ y, (if s.head?.map Char.toLower = some y then some (i + 3) else none).map cs.drop =
      (folded y).first s := by
    intro y
    unfold folded
    cases s with
    | nil => rfl
    | cons z s =>
      rw [Re.first_one_cons, List.head?_cons, Option.map_some]
      by_cases hz : z.toLower = y
      · rw [if_pos (congrArg some hz), if_pos (beq_iff_eq.mpr hz), Option.map_some, hs3]
        rfl
      · rw [if_neg fun he => hz (Option.some.inj he), if_neg fun he => hz (beq_iff_eq.mp he)]
        rfl
  generalize x.toLower = a
  by_cases hone : a = 's' ∨ a = 't' ∨ a = 'm' ∨ a = 'd'
  · obtain rfl | rfl | rfl | rfl := hone <;> simp [contractionEnd, hs]
  · by_cases htwo : a = 'r' ∨ a = 'v' ∨ a = 'l'
    · obtain rfl | rfl | rfl := htwo <;> simp only [contractionEnd, hfold] <;> simp
    · simp only [not_or] at hone htwo
      simp [contractionEnd, hone, htwo]

theorem reads_contractions : Reads contractions cs i (matchContraction cs i) := by
  unfold matchContraction
  constructor
  · unfold contractions
    rw [drop_eq_cons]
    simp only [Re.first_alt, folded, Re.first_one_seq_cons, toLower_beq_quote, decide_eq_true_eq]
    by_cases hq : cs[i] = '\''
    · simp only [if_pos hq, if_neg (not_not.mpr hq)]
      cases hs : cs.drop (i + 1) with
      | nil =>
        rw [← List.head?_drop, hs]
        rfl
      | cons x s =>
        have hx : cs[i.val + 1]? = some x := by
          rw [← List.head?_drop, hs]
          rfl
        have hs2 : cs.drop (i + 2) = s := by
          rw [← List.tail_drop, hs]
          rfl
        have hy : cs[i.val + 2]? = s.head? := by rw [← List.head?_drop, hs2]
        rw [hx, Option.bind_some, hy, contractionEnd_eq hs2]
        simp only [Re.first_one_cons, Re.first_one_seq_cons, folded]
    · simp only [if_neg hq, if_pos hq]
      rfl
  · intro j hj
    split_ifs at hj with hq
    obtain ⟨x, -, hx⟩ := Option.bind_eq_some_iff.mp hj
    exact lt_contractionEnd hx

/-! ### The whole pattern -/

/-- Every character is taken by some alternative. -/
theorem firstAlternative_ne_none : firstAlternative t cs i marksJoin ≠ none := by
  unfold firstAlternative
  simp only [ne_eq, Option.or_eq_none_iff, not_and]
  intro _ hl hn hs _ _ hw
  have hletter : isLm t marksJoin cs[i] = false := by
    unfold matchLetters at hl
    split_ifs at hl with h1 h2
    exact Bool.eq_false_iff.mpr h2
  have hnumber : t.isNumber cs[i] = false := by
    split_ifs at hn with h
    exact Bool.eq_false_iff.mpr h
  have hspace : isWhiteSpace cs[i] = false := by
    unfold matchWhitespace at hw
    split_ifs at hw with h
    exact Bool.not_eq_true' _ ▸ h
  have hsym : isSym t marksJoin cs[i] = true := by
    unfold isLm at hletter
    unfold isSym
    rw [Bool.or_eq_false_iff] at hletter
    rw [hspace, hnumber, hletter.1, hletter.2]
    rfl
  have hblank : cs[i] ≠ ' ' := by
    intro h
    rw [h] at hspace
    cases hspace
  unfold matchSymbols at hs
  rw [if_neg hblank] at hs
  dsimp only at hs
  rw [getElem?_eq, Option.any_some, hsym] at hs
  cases hs

theorem reads_pattern : Reads (pattern t marksJoin) cs i (firstAlternative t cs i marksJoin) :=
  (reads_contractions i).alt ((reads_letters i).alt ((reads_number i).alt ((reads_symbols i).alt
    ((reads_newlines i).alt ((reads_trailing i).alt (reads_whitespace i))))))

/-- `match_alternative` ends where the match of the pattern ends. -/
theorem matchAlternative_spec :
    (pattern t marksJoin).first (cs.drop i) = some (cs.drop (matchAlternative t cs i marksJoin)) ∧
    i < matchAlternative t cs i marksJoin := by
  have hne : firstAlternative t cs i marksJoin ≠ none := firstAlternative_ne_none i
  have h : Reads (pattern t marksJoin) cs i (firstAlternative t cs i marksJoin) := reads_pattern i
  obtain ⟨j, hj⟩ := Option.ne_none_iff_exists'.mp hne
  unfold matchAlternative
  rw [hj] at h ⊢
  exact ⟨h.first, h.lt j rfl⟩

/-! ### All pieces -/

/-- The byte ranges of consecutive parts of a text. -/
def byteRanges : ℕ → List (List Char) → List (ℕ × ℕ)
  | _, [] => []
  | off, m :: ms => (off, off + (encode m).length) :: byteRanges (off + (encode m).length) ms

/-- The offset of a character is the length of what stands before it. -/
theorem charIndices_offset : ∀ (s : List Char) (off k : ℕ),
    (((charIndices off s)[k]?).map (·.1)).getD (off + (encode s).length) = off + (encode (s.take k)).length
  | [], off, k => by
    rw [List.take_nil]
    rfl
  | x :: s, off, 0 => rfl
  | x :: s, off, k + 1 => by
    have ih := charIndices_offset s (off + x.utf8Size) k
    have hx : (String.utf8EncodeChar x).length = x.utf8Size := String.length_utf8EncodeChar x
    rw [charIndices, List.getElem?_cons_succ, List.take_succ_cons, encode_cons, encode_cons, List.length_append,
      List.length_append, hx, ← Nat.add_assoc, ← Nat.add_assoc]
    exact ih

/-- From any place on, the loop yields the ranges of the matches from there. -/
theorem pretokenizeFrom_eq (text : List Char) : ∀ (fuel i : ℕ), text.length - i ≤ fuel →
    let ms := (pattern t marksJoin).findFrom (fuel + 1) (text.drop i)
    pretokenizeFrom t marksJoin text fuel i = byteRanges (encode (text.take i)).length ms ∧
      (∀ m ∈ ms, m ≠ []) ∧ ms.flatten = text.drop i
  | 0, i, h => by
    have hnil : text.drop i = [] := List.drop_eq_nil_of_le (by omega)
    rw [hnil]
    exact ⟨rfl, (fun m hm => nomatch hm), rfl⟩
  | fuel + 1, i, h => by
    dsimp only
    by_cases hi : i < text.length
    · obtain ⟨j, hj⟩ : ∃ j, j = min (matchAlternative t text ⟨i, hi⟩ marksJoin) text.length := ⟨_, rfl⟩
      obtain ⟨hfirst, hlt⟩ : (pattern t marksJoin).first (text.drop i) =
          some (text.drop (matchAlternative t text ⟨i, hi⟩ marksJoin)) ∧
          i < matchAlternative t text ⟨i, hi⟩ marksJoin := matchAlternative_spec ⟨i, hi⟩
      have hdrop : text.drop (matchAlternative t text ⟨i, hi⟩ marksJoin) = text.drop j := by
        rw [hj, Nat.min_def]
        split_ifs
        · rfl
        · rw [List.drop_length, List.drop_eq_nil_of_le (by omega)]
      have hlen : (text.drop (i + 1)).length + 1 - (text.drop j).length = j - i := by
        rw [List.length_drop, List.length_drop]
        omega
      have hfind : (pattern t marksJoin).findFrom (fuel + 1 + 1) (text.drop i) =
          (text.drop i).take (j - i) :: (pattern t marksJoin).findFrom (fuel + 1) (text.drop j) := by
        rw [hdrop, List.drop_eq_getElem_cons hi] at hfirst
        rw [List.drop_eq_getElem_cons hi, Re.findFrom_cons hfirst, hlen]
        rw [List.length_drop, List.length_drop]
        omega
      have htake : (encode (text.take i)).length + (encode ((text.drop i).take (j - i))).length =
          (encode (text.take j)).length := by
        rw [← List.length_append, ← encode_append, ← List.take_add, show i + (j - i) = j by omega]
      obtain ⟨ih1, ih2, ih3⟩ := pretokenizeFrom_eq text fuel j (by omega)
      rw [hfind]
      refine ⟨?_, ?_, ?_⟩
      · rw [pretokenizeFrom, dif_pos hi, byteRanges, htake, ← ih1]
        have hoff := charIndices_offset text 0
        simp only [Nat.zero_add] at hoff
        simp only [hoff, ← hj]
        rw [Nat.max_eq_left (by omega)]
      · intro m hm
        obtain rfl | hm := List.mem_cons.mp hm
        · apply List.ne_nil_of_length_pos
          rw [List.length_take, List.length_drop]
          omega
        · exact ih2 m hm
      · rw [List.flatten_cons, ih3]
        calc (text.drop i).take (j - i) ++ text.drop j
            = (text.drop i).take (j - i) ++ (text.drop i).drop (j - i) := by
              rw [List.drop_drop, show i + (j - i) = j by omega]
          _ = text.drop i := List.take_append_drop _ _
    · have hnil : text.drop i = [] := List.drop_eq_nil_of_le (by omega)
      rw [pretokenizeFrom, dif_neg hi, hnil]
      exact ⟨rfl, (fun m hm => nomatch hm), rfl⟩

/-- **The pre-tokenizer splits a text as the pattern does.** Its ranges are
those of the matches taken from the left, none of which is empty and which
together are the text. -/
theorem pretokenizeWith_eq_findAll (t : Categories) (text : List Char) (marksJoin : Bool) :
    let ms := (pattern t marksJoin).findAll text
    pretokenizeWith t text marksJoin = byteRanges 0 ms ∧ (∀ m ∈ ms, m ≠ []) ∧ ms.flatten = text :=
  pretokenizeFrom_eq text text.length 0 (Nat.sub_le _ _)

end Qwen
end Siphon
