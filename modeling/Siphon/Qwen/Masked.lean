/-
# Masked tokens are not drawn

An entry that is masked before the temperature is masked, or not a number,
behind every later filter: what a filter puts back is the entry it had, and
`min_p` puts back at an entry with mass. Such an entry has no mass in the
softmax, and the walk of `select` passes it over (`not_off_of_next`).

Key definitions: `At`, `Off`.
Key theorem: `not_off_of_next`.
-/
import Siphon.Qwen.Draw

namespace Siphon
namespace Qwen

open Ieee

/-! ### One entry through the filters -/

/-- The entry of token `i` is one of `P`. -/
def At (P : F32 → Prop) (l : List F32) (i : ℕ) : Prop := ∃ v, l[i]? = some v ∧ P v

section At

variable (m : Libm) {P : F32 → Prop} (hP : P filtered) {l : List F32} {i : ℕ}

theorem At.getD (h : At P l i) : P (l.getD i nan) := by
  obtain ⟨v, hv, hp⟩ := h
  rwa [List.getD_eq_getElem?_getD, hv, Option.getD_some]

theorem At.set {j : ℕ} {x : F32} (h : At P l i) (hx : j = i → P x) : At P (l.set j x) i := by
  obtain ⟨v, hv, hp⟩ := h
  by_cases hj : j = i
  · subst hj
    exact ⟨x, List.getElem?_set_self (List.getElem?_eq_some_iff.mp hv).1, hx rfl⟩
  · exact ⟨v, by rwa [List.getElem?_set_ne hj], hp⟩

theorem At.map {f : F32 → F32} (h : At P l i) (hf : ∀ v, P v → P (f v)) : At P (l.map f) i := by
  obtain ⟨v, hv, hp⟩ := h
  exact ⟨f v, by rw [List.getElem?_map, hv, Option.map_some], hf v hp⟩

/-- A filter puts back the entry it had. -/
theorem At.restore {l' : List F32} (h : At P l i) (h' : At P l' i) (b : ℕ) :
    At P (if Feq (l'.getD b nan) filtered then l'.set b (l.getD b nan) else l') i := by
  split
  · exact h'.set fun hb => hb ▸ h.getD
  · exact h'

include hP

theorem At.ite {v : F32} {c : Prop} [Decidable c] (h : P v) : P (if c then filtered else v) := by
  split
  · exact hP
  · exact h

theorem at_topK (k : ℕ) (h : At P l i) : At P (topK l k) i := by
  unfold topK
  split
  · exact h
  · exact h.map fun v hv => At.ite hP hv

theorem at_maskTail (probs : List F32) (t : F32) : ∀ (order : List ℕ) (acc : F32) {l : List F32}, At P l i →
    At P (maskTail probs t order acc l) i
  | [], _, _, h => h
  | j :: order, acc, l, h => by
    unfold maskTail
    dsimp only
    split
    · exact at_maskTail probs t order _ (h.set fun _ => hP)
    · exact h

theorem at_topP (p : F64) (h : At P l i) : At P (topP m l p) i := by
  unfold topP
  split
  · exact h
  · dsimp only
    split
    · exact h
    · exact h.restore (at_maskTail hP _ _ _ _ h) _

/-- The loop of `typical_p`. -/
theorem at_maskIf (c : ℕ → Prop) [DecidablePred c] : ∀ (order : List ℕ) {l : List F32}, At P l i →
    At P (order.foldl (fun l i => if c i then l.set i filtered else l) l) i
  | [], _, h => h
  | j :: order, l, h => by
    apply at_maskIf c order
    dsimp only
    split
    · exact h.set fun _ => hP
    · exact h

theorem at_typicalP (p : F64) (h : At P l i) : At P (typicalP m l p) i := by
  unfold typicalP
  split
  · exact h
  · dsimp only
    split
    · exact h
    · exact h.restore (at_maskIf hP _ _ h) _

end At

/-! ### Sums -/

theorem not_isPositive_of_key {x : F32} (h : key x = 0) : ¬ isPositive x := by
  intro hpos
  have := (of_decide_eq_true hpos : zero < x).2.2
  rw [h, key_zero] at this
  exact absurd this (lt_irrefl _)

/-- A number without mass is at most zero. -/
theorem key_le_zero {x : F32} (hx : x ≠ nan) (h : ¬ isPositive x) : key x ≤ 0 := by
  by_contra hc
  exact h (decide_eq_true ⟨zero_ne_nan, hx, not_le.mp hc⟩)

theorem add_nan (x : F32) : add x nan = nan := by cases x <;> rfl

theorem not_isPositive_add {x y : F32} (hx : ¬ isPositive x) (hy : ¬ isPositive y) : ¬ isPositive (add x y) := by
  have hinf : isPositive (infinite false) := by decide
  have hneg : ¬ isPositive (infinite true) := by decide
  match x, y with
  | nan, _ => exact Bool.false_ne_true
  | _, nan => rw [add_nan]; exact Bool.false_ne_true
  | infinite false, _ => exact absurd hinf hx
  | _, infinite false => exact absurd hinf hy
  | infinite true, infinite true => exact hneg
  | infinite true, finite _ _ => exact hneg
  | finite _ _, infinite true => exact hneg
  | finite n a, finite n' b =>
    have hle : ∀ {z : F32}, z.isFinite → ¬ isPositive z → toRat z ≤ 0 := by
      intro z hz hp
      have := (toRat_le_toRat hz (rfl : (zero : F32).isFinite)).mpr (key_le_zero (ne_nan_of_isFinite hz) hp)
      rwa [toRat_zero] at this
    have hsum : toRat (finite n a) + toRat (finite n' b) ≤ 0 := add_nonpos (hle rfl hx) (hle rfl hy)
    have hkey := roundKey_mono (f := ⟨23, 127⟩) hsum
    rw [← key_add rfl rfl, roundKey_zero] at hkey
    intro hpos
    have := (of_decide_eq_true hpos : zero < add (finite n a) (finite n' b)).2.2
    rw [key_zero] at this
    exact absurd this (not_lt.mpr hkey)

theorem not_isPositive_foldl : ∀ {l : List F32} {acc : F32}, ¬ isPositive acc → (∀ x ∈ l, ¬ isPositive x) →
    ¬ isPositive (l.foldl add acc)
  | [], _, h, _ => h
  | x :: l, acc, h, hl => by
    obtain ⟨hx, hl⟩ := List.forall_mem_cons.mp hl
    rw [List.foldl_cons]
    exact not_isPositive_foldl (not_isPositive_add h hx) hl

/-- A positive sum has a positive term. -/
theorem exists_isPositive_of_total {l : List F32} (h : isPositive (total l)) : ∃ x ∈ l, isPositive x := by
  by_contra! hno
  exact not_isPositive_foldl (by decide) (fun x hx hpos => hno x hx hpos) h

theorem foldl_add_nan : ∀ (l : List F32), l.foldl add nan = nan
  | [] => rfl
  | _ :: l => foldl_add_nan l

/-- A positive sum has numbers for terms. -/
theorem ne_nan_of_total {l : List F32} (h : isPositive (total l)) : ∀ x ∈ l, x ≠ nan := by
  rintro _ hx rfl
  obtain ⟨l1, l2, rfl⟩ := List.append_of_mem hx
  rw [total, List.foldl_append, List.foldl_cons, add_nan, foldl_add_nan] at h
  exact Bool.false_ne_true h

/-! ### What cannot be drawn -/

/-- Nothing is drawn here: the entry is masked, or no number. -/
def Off (x : F32) : Prop := x = filtered ∨ x = nan

section Off

variable {m : Libm} {l : List F32} {i : ℕ}

theorem off_filtered : Off filtered := .inl rfl

/-- A masked entry has no mass. -/
theorem softmax_filtered (h : l[i]? = some filtered) {p : F32} (hp : (softmax m l)[i]? = some p) : ¬ isPositive p := by
  have hf : Feq (filtered : F32) filtered := by decide
  unfold softmax at hp
  dsimp only at hp
  split at hp
  · rw [List.getElem?_replicate] at hp
    split at hp
    · rw [← Option.some.inj hp]
      decide
    · cases hp
  · split at hp
    · rename_i hsum
      rw [List.getElem?_map, List.getElem?_map, h, Option.map_some, Option.map_some, if_pos hf] at hp
      rw [← Option.some.inj hp]
      exact not_isPositive_of_key (key_zero_div hsum)
    · rw [List.getElem?_map, h, Option.map_some, if_pos hf] at hp
      rw [← Option.some.inj hp]
      decide

variable (hexp : m.exp nan = nan)

include hexp in
/-- An entry that is no number spoils the sum. -/
theorem softmax_nan (h : l[i]? = some nan) : ¬ isPositive (total (softmax m l)) := by
  have hmem : nan ∈ l.map fun v => if Feq v filtered then zero else m.exp (sub v (greatest l)) := by
    refine List.mem_map.mpr ⟨nan, List.mem_of_getElem? h, ?_⟩
    have hf : ¬ Feq (nan : F32) filtered := fun h => h.1 rfl
    rw [if_neg hf]
    exact hexp
  have hsum := fun hpos => ne_nan_of_total hpos nan hmem rfl
  intro hpos
  obtain ⟨p, hp, hppos⟩ := exists_isPositive_of_total hpos
  unfold softmax at hpos hp
  dsimp only at hpos hp
  split at hpos
  · rename_i htop
    rw [if_pos htop, List.mem_replicate] at hp
    rw [hp.2] at hppos
    exact absurd hppos (by decide)
  · split at hpos
    · rename_i hlt
      exact hsum (decide_eq_true hlt)
    · exact hsum hpos

include hexp in
theorem softmax_off (h : At Off l i) (hpos : isPositive (total (softmax m l))) {p : F32}
    (hp : (softmax m l)[i]? = some p) : ¬ isPositive p := by
  obtain ⟨v, hv, rfl | rfl⟩ := h
  · exact softmax_filtered hv hp
  · exact absurd hpos (softmax_nan hexp hv)

/-- A positive temperature leaves a masked entry masked, or divides it by infinity. -/
theorem off_div {c : F64} (h : zero < c) {v : F32} (hv : Off v) : Off (div v (convert _ c)) := by
  rcases hv with rfl | rfl
  · match c with
    | nan => exact absurd rfl h.2.1
    | infinite n => exact .inr rfl
    | finite true b =>
      have : (0 : ℤ) < -(b.val : ℤ) := h.2.2
      omega
    | finite false b =>
      simp only [convert, ofRat]
      split
      · exact .inl rfl
      · exact .inr rfl
  · exact .inr rfl

theorem at_temperature {c : F64} (hc : zero < c) (h : At Off l i) : At Off (temperature l (convert _ c)) i := by
  unfold temperature
  split
  · exact h
  · exact h.map fun v hv => off_div hc hv

/-- The scan of `min_p` finds the first greatest mass. -/
theorem argmaxFrom_eq {x : F32} {l : List F32} (hx : x ≠ nan) :
    argmaxFrom (x :: l) 0 0 (infinite true) = argmax (x :: l) := by
  have hirr : ¬ x < x := fun h => absurd h.2.2 (lt_irrefl _)
  rw [argmax, argmaxFrom, argmaxFrom, if_neg hirr]
  split
  · rfl
  · rename_i hnot
    have hkey : key x ≤ -(Format.magnitudes ⟨23, 127⟩ : ℤ) := not_lt.mp fun hlt => hnot ⟨by simp, hx, hlt⟩
    cases x with
    | nan => exact absurd rfl hx
    | infinite neg =>
      cases neg with
      | true => rfl
      | false =>
        simp only [key] at hkey
        have : 0 < Format.magnitudes ⟨23, 127⟩ := by decide
        omega
    | finite neg b =>
      have hb := b.isLt
      cases neg <;> simp only [key] at hkey <;> omega

/-- It has mass where any has. -/
theorem argmaxFrom_mass : ∀ {probs : List F32}, (∀ x ∈ probs, x ≠ nan) → (∃ r ∈ probs, isPositive r) →
    ∃ q, probs[argmaxFrom probs 0 0 (infinite true)]? = some q ∧ isPositive q
  | [], _, h => by
    obtain ⟨r, hr, -⟩ := h
    exact absurd hr List.not_mem_nil
  | x :: xs, hnum, h => by
    obtain ⟨r, hr, hpos⟩ := h
    obtain ⟨q, hq, hmax, -⟩ := isFirstMax_argmax (List.cons_ne_nil x xs) hnum
    rw [argmaxFrom_eq (hnum x List.mem_cons_self)]
    exact ⟨q, hq, decide_eq_true (lt_of_lt_of_le' (of_decide_eq_true hpos) (hmax r hr))⟩

include hexp in
theorem at_minP (p : F64) (h : At Off l i) : At Off (minP m l p) i := by
  unfold minP
  split
  · exact h
  · dsimp only
    split
    · exact h
    · rename_i htot
      have hpos : isPositive (total (softmax m l)) := by simpa using htot
      obtain ⟨v, hv, hoff⟩ := h
      have hi : i < l.length := (List.getElem?_eq_some_iff.mp hv).1
      obtain ⟨q, hq⟩ : ∃ q, (softmax m l)[i]? = some q :=
        ⟨_, List.getElem?_eq_getElem ((length_softmax m l).symm ▸ hi)⟩
      have hqpos := softmax_off hexp ⟨v, hv, hoff⟩ hpos hq
      have hleft : At Off (l.zipWith (fun v q => if q < mul (convert _ p) ((softmax m l).foldl max zero) then filtered
          else v) (softmax m l)) i := by
        refine ⟨_, List.getElem?_zipWith_eq_some.mpr ⟨v, q, hv, hq, rfl⟩, ?_⟩
        exact At.ite off_filtered hoff
      -- what is put back stands at an entry with mass
      obtain ⟨r, hr, hrpos⟩ := argmaxFrom_mass (ne_nan_of_total hpos) (exists_isPositive_of_total hpos)
      have hbest : argmaxFrom (softmax m l) 0 0 (infinite true) ≠ i := by
        intro hb
        rw [hb, hq] at hr
        exact hqpos (Option.some.inj hr ▸ hrpos)
      split
      · exact hleft.set fun hb => absurd hb hbest
      · exact hleft

/-- A filter that is on or off. -/
theorem At.gate {l' : List F32} {c : Prop} [Decidable c] (h : At Off l i) (h' : c → At Off l' i) :
    At Off (if c then l' else l) i := by
  split
  · rename_i hc
    exact h' hc
  · exact h

/-- What the penalties leave. -/
def penalized (c : SamplerConfig) (logits : List F32) (history : List UInt32) : List F32 :=
  let l := if ¬ Feq c.repetitionPenalty (ofNat 1) then
    repetitionPenalty logits history (convert _ c.repetitionPenalty) else logits
  let l := if ¬ Feq c.presencePenalty zero then presencePenalty l history (convert _ c.presencePenalty) else l
  if ¬ Feq c.frequencyPenalty zero then frequencyPenalty l history (convert _ c.frequencyPenalty) else l

theorem length_penalized (c : SamplerConfig) (logits : List F32) (history : List UInt32) :
    (penalized c logits history).length = logits.length := by
  unfold penalized
  dsimp only
  rw [length_ite (length_frequencyPenalty _ _ _), length_ite (length_presencePenalty _ _ _),
    length_ite (length_repetitionPenalty _ _ _)]

include hexp in
/-- What `no_repeat_ngram` masks is off behind all filters. -/
theorem at_applyFilters {c : SamplerConfig} (hn : 2 ≤ c.noRepeatNgramSize) {logits : List F32} {history : List UInt32}
    (h : (noRepeatNgram (penalized c logits history) history c.noRepeatNgramSize)[i]? = some filtered) :
    At Off (applyFilters m c logits history) i := by
  have h : At Off (noRepeatNgram (penalized c logits history) history c.noRepeatNgramSize) i := ⟨_, h, off_filtered⟩
  replace h := h.gate fun (hc : zero < c.temperature ∧ ¬ Feq c.temperature (ofNat 1)) => at_temperature hc.1 h
  replace h := h.gate fun (_ : 1 ≤ c.topK) => at_topK off_filtered c.topK h
  replace h := h.gate fun (_ : c.topP < ofNat 1) => at_topP m off_filtered c.topP h
  replace h := h.gate fun (_ : zero < c.minP) => at_minP hexp c.minP h
  unfold applyFilters
  dsimp only
  rw [if_pos hn]
  exact h.gate fun _ => at_typicalP m off_filtered c.typicalP h

end Off

/-! ### The draw -/

theorem selectFrom_mass (u : F64) : ∀ {ps : List F32} {i : ℕ} {acc : F64} {last : Option ℕ} {j : ℕ},
    selectFrom u ps i acc last = some j → last = some j ∨ ∃ k p, ps[k]? = some p ∧ isPositive p ∧ j = i + k
  | [], _, _, _, _, h => .inl h
  | p :: ps, i, acc, last, j, h => by
    have hrest : (∃ k q, ps[k]? = some q ∧ isPositive q ∧ j = i + 1 + k) →
        ∃ k q, (p :: ps)[k]? = some q ∧ isPositive q ∧ j = i + k := by
      rintro ⟨k, q, hq, hpos, rfl⟩
      exact ⟨k + 1, q, hq, hpos, by omega⟩
    rw [selectFrom] at h
    by_cases hp : isPositive p
    · rw [if_neg (by simpa using hp)] at h
      dsimp only at h
      have hhere : i = j → ∃ k q, (p :: ps)[k]? = some q ∧ isPositive q ∧ j = i + k := by
        rintro rfl
        exact ⟨0, p, rfl, hp, rfl⟩
      split at h
      · exact .inr (hhere (Option.some.inj h))
      · rcases selectFrom_mass u h with hlast | hk
        · exact .inr (hhere (Option.some.inj hlast))
        · exact .inr (hrest hk)
    · rw [if_pos (by simpa using hp)] at h
      exact (selectFrom_mass u h).imp_right hrest

/-- What is drawn has mass. -/
theorem select_mass {probs : List F32} {u : F64} {j : ℕ} (h : select probs u = some j) :
    ∃ p, probs[j]? = some p ∧ isPositive p := by
  rcases selectFrom_mass u h with hnone | ⟨k, p, hp, hpos, rfl⟩
  · cases hnone
  · exact ⟨p, by rwa [Nat.zero_add], hpos⟩

/-- A sampler does not draw what is off. -/
theorem not_off_of_next {m : Libm} (hexp : m.exp nan = nan) {s : Sampler} {logits : List F32} {history : List UInt32}
    (hlen : logits.length ≤ 2 ^ 32) {t : UInt32} (h : (Sampler.next m s logits history).1 = .ok t) :
    t.toNat < logits.length ∧ ¬ At Off (applyFilters m s.cfg logits history) t.toNat := by
  obtain ⟨hpos, i, hs, rfl⟩ := @select_of_next m s.cfg logits history s.rng t h
  have hi := select_lt hs
  rw [length_softmax, length_applyFilters] at hi
  obtain ⟨p, hp, hppos⟩ := select_mass hs
  rw [UInt32.toNat_ofNat', Nat.mod_eq_of_lt (by omega)]
  exact ⟨hi, fun hoff => softmax_off hexp hoff hpos hp hppos⟩

end Qwen
end Siphon
