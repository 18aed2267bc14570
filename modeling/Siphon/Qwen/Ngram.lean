/-
# Repeated n-grams

`no_repeat_ngram` masks the tokens that would end an n-gram a second time: it
looks for the last `n - 1` tokens of the history in every window of the
history, also in windows that overlap them, and masks what followed. A token
that is drawn from what it leaves does not end an n-gram that was there
before (`fresh_of_generated`). The sampler draws no other token, and so no run
of it repeats an n-gram (`sampleStopping_generated`).

Key definitions: `Fresh`, `Generated`.
Key theorem: `noRepeatNgram_spec`.
-/
import Mathlib.Data.List.Infix
import Siphon.Qwen.Greedy

namespace Siphon
namespace Qwen

open Ieee Rows Fallible

/-! ### Windows -/

section Windows

variable {α : Type}

/-- What a loop collects, each once. -/
theorem mem_collect {ι : Type} [DecidableEq α] (P : ι → Prop) [DecidablePred P] (f : ι → α) {x : α} :
    ∀ (l : List ι) (acc : List α),
      x ∈ l.foldl (fun acc i => if P i ∧ f i ∉ acc then acc ++ [f i] else acc) acc ↔ x ∈ acc ∨ ∃ i ∈ l, P i ∧ f i = x
  | [], acc => by simp
  | i :: l, acc => by
    rw [List.foldl_cons, mem_collect P f l]
    by_cases h : P i ∧ f i ∉ acc
    · rw [if_pos h, List.mem_append, List.mem_singleton]
      constructor
      · rintro ((hx | rfl) | ⟨j, hj, hx⟩)
        · exact .inl hx
        · exact .inr ⟨i, List.mem_cons_self, h.1, rfl⟩
        · exact .inr ⟨j, List.mem_cons_of_mem i hj, hx⟩
      · rintro (hx | ⟨j, hj, hP, rfl⟩)
        · exact .inl (.inl hx)
        · rcases List.mem_cons.mp hj with rfl | hj
          · exact .inl (.inr rfl)
          · exact .inr ⟨j, hj, hP, rfl⟩
    · rw [if_neg h]
      constructor
      · rintro (hx | ⟨j, hj, hx⟩)
        · exact .inl hx
        · exact .inr ⟨j, List.mem_cons_of_mem i hj, hx⟩
      · rintro (hx | ⟨j, hj, hP, rfl⟩)
        · exact .inl hx
        · rcases List.mem_cons.mp hj with rfl | hj
          · -- it was collected before
            exact .inl (by simpa using fun hnot => h ⟨hP, hnot⟩)
          · exact .inr ⟨j, hj, hP, rfl⟩

/-- A contiguous part stands at some place. -/
theorem infix_iff_window {s l : List α} : s <:+: l ↔ ∃ w, w + s.length ≤ l.length ∧ (l.drop w).take s.length = s := by
  constructor
  · rintro ⟨a, b, rfl⟩
    refine ⟨a.length, by simp, ?_⟩
    rw [List.append_assoc, List.drop_left, List.take_left]
  · rintro ⟨w, -, hw⟩
    rw [← hw]
    exact (List.take_prefix _ _).isInfix.trans (List.drop_suffix _ _).isInfix

/-- A window and the token behind it. -/
theorem take_succ_eq_iff {l s : List α} {w k : ℕ} {x : α} (hs : s.length = k) :
    (l.drop w).take (k + 1) = s ++ [x] ↔ (l.drop w).take k = s ∧ l[w + k]? = some x := by
  rw [List.take_add_one, List.getElem?_drop]
  cases hx : l[w + k]? with
  | none =>
    have hlen : (l.drop w).length ≤ k := by
      rw [List.length_drop]
      have := List.getElem?_eq_none_iff.mp hx
      omega
    simp only [Option.toList_none, List.append_nil, reduceCtorEq, and_false, iff_false]
    intro he
    have := congrArg List.length he
    simp only [List.length_take, List.length_append, List.length_singleton] at this
    omega
  | some y =>
    have hlen : ((l.drop w).take k).length = s.length := by
      have := (List.getElem?_eq_some_iff.mp hx).1
      rw [List.length_take, List.length_drop]
      omega
    rw [Option.toList_some, Option.some.injEq]
    constructor
    · intro he
      obtain ⟨h1, h2⟩ := List.append_inj he hlen
      exact ⟨h1, (List.cons.inj h2).1⟩
    · rintro ⟨h1, rfl⟩
      rw [h1]

/-- The last `n` entries. -/
def lastN (n : ℕ) (l : List α) : List α := l.drop (l.length - n)

theorem lastN_append_singleton {n : ℕ} (hn : 1 ≤ n) (l : List α) (x : α) :
    lastN n (l ++ [x]) = lastN (n - 1) l ++ [x] := by
  unfold lastN
  have hlen : (l ++ [x]).length - n = l.length - (n - 1) := by
    rw [List.length_append, List.length_singleton]
    omega
  rw [hlen, List.drop_append_of_le_length (Nat.sub_le _ _)]

end Windows

/-! ### The mask -/

theorem mem_bannedTokens {history : List UInt32} {n : ℕ} (hn : 2 ≤ n) (hlen : n ≤ history.length) (t : UInt32) :
    t ∈ bannedTokens history n ↔ lastN (n - 1) history ++ [t] <:+: history := by
  have hsuffix : (lastN (n - 1) history).length = n - 1 := by
    rw [lastN, List.length_drop]
    omega
  have hn1 : n - 1 + 1 = n := by omega
  have hlast : (lastN (n - 1) history ++ [t]).length = n := by
    rw [List.length_append, hsuffix, List.length_singleton, hn1]
  unfold bannedTokens
  dsimp only
  rw [mem_collect (fun w => (history.drop w).take (n - 1) = history.drop (history.length - (n - 1)))
    (fun w => history.getD (w + n - 1) 0), infix_iff_window, hlast]
  simp only [List.not_mem_nil, false_or]
  refine exists_congr fun w => ?_
  rw [List.mem_range]
  constructor
  · rintro ⟨hw, hP, rfl⟩
    have hlt : w + (n - 1) < history.length := by omega
    have hpos : w + n - 1 = w + (n - 1) := by omega
    refine ⟨by omega, ?_⟩
    have h := (take_succ_eq_iff (x := history.getD (w + n - 1) 0) hsuffix).mpr ⟨hP, ?_⟩
    · rw [hn1] at h
      exact h
    · rw [hpos, List.getElem?_eq_getElem hlt, List.getD_eq_getElem _ _ hlt]
  · rintro ⟨hw, he⟩
    have he : (history.drop w).take (n - 1 + 1) = lastN (n - 1) history ++ [t] := hn1.symm ▸ he
    rw [take_succ_eq_iff hsuffix] at he
    have hpos : w + n - 1 = w + (n - 1) := by omega
    refine ⟨by omega, he.1, ?_⟩
    rw [hpos, List.getD_eq_getElem?_getD, he.2, Option.getD_some]

/-- The loop that masks. -/
theorem getElem?_maskTokens (i : ℕ) : ∀ (tokens : List UInt32) (l : List F32), i < l.length →
    (tokens.foldl (fun l t => if t.toNat < l.length then l.set t.toNat filtered else l) l)[i]? =
      if ∃ t ∈ tokens, t.toNat = i then some filtered else l[i]?
  | [], l, _ => by simp
  | t :: tokens, l, hi => by
    have hlen : (if t.toNat < l.length then l.set t.toNat filtered else l).length = l.length := by
      rw [length_ite_set]
    rw [List.foldl_cons, getElem?_maskTokens i tokens _ (hlen.symm ▸ hi)]
    by_cases hmem : ∃ u ∈ tokens, u.toNat = i
    · obtain ⟨u, hu, hui⟩ := hmem
      rw [if_pos ⟨u, hu, hui⟩, if_pos ⟨u, List.mem_cons_of_mem t hu, hui⟩]
    · rw [if_neg hmem]
      by_cases hti : t.toNat = i
      · have hex : ∃ u ∈ t :: tokens, u.toNat = i := ⟨t, List.mem_cons_self, hti⟩
        rw [if_pos hex, hti, if_pos hi, List.getElem?_set_self hi]
      · have hnot : ¬ ∃ u ∈ t :: tokens, u.toNat = i := by
          rintro ⟨u, hu, hui⟩
          rcases List.mem_cons.mp hu with rfl | hu
          · exact hti hui
          · exact hmem ⟨u, hu, hui⟩
        rw [if_neg hnot]
        by_cases hlt : t.toNat < l.length
        · rw [if_pos hlt, List.getElem?_set_ne hti]
        · rw [if_neg hlt]

theorem getElem?_noRepeatNgram {logits : List F32} {history : List UInt32} {n : ℕ} (hn : 2 ≤ n) {t : UInt32}
    (ht : t.toNat < logits.length) :
    (noRepeatNgram logits history n)[t.toNat]? =
      if lastN (n - 1) history ++ [t] <:+: history then some filtered else logits[t.toNat]? := by
  unfold noRepeatNgram
  by_cases hlen : history.length < n
  · have hnot : ¬ lastN (n - 1) history ++ [t] <:+: history := by
      intro h
      have hle := h.length_le
      rw [List.length_append, List.length_singleton, lastN, List.length_drop] at hle
      omega
    rw [if_pos (.inr hlen), if_neg hnot]
  · rw [if_neg (by omega), getElem?_maskTokens _ _ _ ht]
    refine if_congr ?_ rfl rfl
    rw [← mem_bannedTokens hn (not_lt.mp hlen)]
    constructor
    · rintro ⟨u, hu, hut⟩
      exact UInt32.toNat_inj.mp hut ▸ hu
    · exact fun h => ⟨t, h, rfl⟩

/-- An entry that no token stands for is left as it is. -/
theorem getElem?_noRepeatNgram_of_ne {logits : List F32} {history : List UInt32} {n i : ℕ}
    (h : ∀ t : UInt32, t.toNat ≠ i) : (noRepeatNgram logits history n)[i]? = logits[i]? := by
  by_cases hi : i < logits.length
  · unfold noRepeatNgram
    by_cases hlen : n < 2 ∨ history.length < n
    · rw [if_pos hlen]
    · have hnot : ¬ ∃ t ∈ bannedTokens history n, t.toNat = i := fun ⟨t, _, ht⟩ => h t ht
      rw [if_neg hlen, getElem?_maskTokens _ _ _ hi, if_neg hnot]
  · have hlen := length_noRepeatNgram logits history n
    rw [List.getElem?_eq_none (by omega), List.getElem?_eq_none (by omega)]

/-! ### Runs -/

/-- Token `t` has a logit, which is not masked. -/
def Open (logits : List F32) (t : UInt32) : Prop := ∃ v, logits[t.toNat]? = some v ∧ v ≠ filtered

/-- No token of `generated` ends an n-gram that was there before it, in the prompt or in what was generated. -/
def Fresh (n : ℕ) (prompt generated : List UInt32) : Prop :=
  ∀ i < generated.length, ¬ lastN n (prompt ++ generated.take (i + 1)) <:+: prompt ++ generated.take i

/-- A run: every token was drawn from logits that `no_repeat_ngram` was applied to, with all tokens before it. -/
inductive Generated (n : ℕ) (prompt : List UInt32) : List UInt32 → Prop
  | nil : Generated n prompt []
  | snoc {generated : List UInt32} {t : UInt32} (logits : List F32) : Generated n prompt generated →
      Open (noRepeatNgram logits (prompt ++ generated) n) t → Generated n prompt (generated ++ [t])

/-- One draw ends no n-gram of the history. -/
theorem not_infix_of_open {n : ℕ} (hn : 2 ≤ n) {logits : List F32} {history : List UInt32} {t : UInt32}
    (h : Open (noRepeatNgram logits history n) t) : ¬ lastN n (history ++ [t]) <:+: history := by
  obtain ⟨v, hv, hne⟩ := h
  have hi : t.toNat < logits.length := by
    rw [← length_noRepeatNgram logits history n]
    exact (List.getElem?_eq_some_iff.mp hv).1
  rw [getElem?_noRepeatNgram hn hi] at hv
  rw [lastN_append_singleton (by omega)]
  intro hin
  rw [if_pos hin] at hv
  exact hne (Option.some.inj hv).symm

theorem fresh_of_generated {n : ℕ} (hn : 2 ≤ n) {prompt generated : List UInt32} (h : Generated n prompt generated) :
    Fresh n prompt generated := by
  induction h with
  | nil => exact fun i hi => absurd hi (Nat.not_lt_zero i)
  | @snoc generated t logits _ hopen ih =>
    intro i hi
    rw [List.length_append, List.length_singleton] at hi
    by_cases hlt : i < generated.length
    · rw [List.take_append_of_le_length hlt, List.take_append_of_le_length hlt.le]
      exact ih i hlt
    · obtain rfl : i = generated.length := by omega
      have h1 : (generated ++ [t]).take (generated.length + 1) = generated ++ [t] := List.take_of_length_le (by simp)
      rw [h1, List.take_left, ← List.append_assoc]
      exact not_infix_of_open hn hopen

/-! ### The decode loop -/

section Loop

variable {a : Arith F32 F64} {mcfg : ModelConfig F32} {w : ModelWeights F32} {stop : List UInt32} {m : Libm}
  (hexp : m.exp nan = nan)

/-- The logits of the last position are as many as there are tokens. -/
theorem forwardCached_lastLogits {cache cache' : Cache F32} {ids : List ℕ} {tr : ModelTrace F32}
    (h : forwardCached a mcfg w cache ids = (.ok tr, cache')) : tr.lastLogits.length = mcfg.vocab := by
  unfold forwardCached at h
  dsimp only at h
  by_cases ht : ids.length = 0
  · rw [if_pos ht] at h
    cases h
  · rw [if_neg ht] at h
    by_cases hc : cache.states.length ≠ w.layers.length
    · rw [if_pos hc] at h
      cases h
    · rw [if_neg hc] at h
      rcases he : embed w.embedTokens mcfg.vocab mcfg.hidden ids with _ | e
      · rw [he] at h
        cases h
      · rw [he] at h
        dsimp only at h
        generalize runLayersCached a mcfg _ _ 0 w.layers cache.states e = r at h
        obtain ⟨_ | ⟨layers, x⟩, states⟩ := r
        · cases h
        · have hfin : finish a mcfg w ids.length e layers x = .ok tr := congrArg Prod.fst h
          unfold finish at hfin
          dsimp only at hfin
          obtain ⟨norm, -, hfin⟩ := bind_eq_ok hfin
          obtain ⟨logits, hlin, hfin⟩ := bind_eq_ok hfin
          obtain rfl := Except.ok.inj hfin
          unfold linear at hlin
          obtain ⟨_, -, hlin⟩ := bind_eq_ok hlin
          obtain ⟨_, -, hlin⟩ := bind_eq_ok hlin
          obtain rfl := Except.ok.inj hlin
          obtain ⟨k, hk⟩ := Nat.exists_eq_succ_of_ne_zero ht
          rw [ModelTrace.lastLogits, List.length_drop, length_mapRows _ (length_linearRow a _ _ _ _)]
          dsimp only
          rw [hk, Nat.succ_sub_one, Nat.one_mul, Nat.succ_mul, Nat.add_sub_cancel_left]

include hexp in
/-- What the sampler draws was open behind `no_repeat_ngram`. -/
theorem open_of_next {s : Sampler} (hn : 2 ≤ s.cfg.noRepeatNgramSize) {logits : List F32} (hlen : logits.length ≤ 2 ^ 32)
    {history : List UInt32} {t : UInt32} (h : (Sampler.next m s logits history).1 = .ok t) :
    Open (noRepeatNgram (penalized s.cfg logits history) history s.cfg.noRepeatNgramSize) t := by
  obtain ⟨ht, hoff⟩ := not_off_of_next hexp hlen h
  have hlt : t.toNat < (noRepeatNgram (penalized s.cfg logits history) history s.cfg.noRepeatNgramSize).length := by
    rwa [length_noRepeatNgram, length_penalized]
  refine ⟨_, List.getElem?_eq_getElem hlt, fun hf => hoff ?_⟩
  exact at_applyFilters hexp hn ((List.getElem?_eq_getElem hlt).trans (congrArg some hf))

include hexp in
theorem sampleLoop_generated (hvocab : mcfg.vocab ≤ 2 ^ 32) {prompt : List UInt32} : ∀ {steps : ℕ} {tr : ModelTrace F32}
    {cache : Cache F32} {s : Sampler} {generated : List UInt32} {traces : List (ModelTrace F32)}
    {out : List UInt32 × List (ModelTrace F32) × Bool}, 2 ≤ s.cfg.noRepeatNgramSize →
    tr.lastLogits.length = mcfg.vocab → Generated s.cfg.noRepeatNgramSize prompt generated →
    sampleLoop a mcfg w stop m steps tr cache s (prompt ++ generated) generated traces = .ok out →
    Generated s.cfg.noRepeatNgramSize prompt out.1
  | 0, _, _, _, _, _, _, _, _, hgen, h => Except.ok.inj h ▸ hgen
  | steps + 1, tr, cache, s, generated, traces, out, hn, hlen, hgen, h => by
    unfold sampleLoop at h
    dsimp only at h
    by_cases hfin : (!tr.lastLogits.all isFinite) = true
    · rw [if_pos hfin] at h
      cases h
    rw [if_neg hfin] at h
    have hopen := fun t => @open_of_next m hexp s hn _ (hlen.trans_le hvocab) (prompt ++ generated) t
    have hcfg := next_cfg (m := m) s tr.lastLogits (prompt ++ generated)
    rcases hnext : Sampler.next m s tr.lastLogits (prompt ++ generated) with ⟨_ | t, s'⟩
    · rw [hnext] at h
      cases h
    · rw [hnext] at h hopen hcfg
      dsimp only at h hcfg
      by_cases hstop : t ∈ stop
      · rw [if_pos hstop] at h
        exact Except.ok.inj h ▸ hgen
      · rw [if_neg hstop] at h
        rcases hrun : forwardCached a mcfg w cache [t.toNat] with ⟨_ | tr', cache'⟩
        · rw [hrun] at h
          cases h
        · rw [hrun] at h
          dsimp only at h
          rw [List.append_assoc] at h
          rw [← hcfg] at hn hgen hopen ⊢
          exact sampleLoop_generated hvocab hn (forwardCached_lastLogits hrun) (.snoc _ hgen (hopen t rfl)) h

include hexp in
/-- A run of `sample_stopping` is one of `no_repeat_ngram`. -/
theorem sampleStopping_generated (hvocab : mcfg.vocab ≤ 2 ^ 32) {s : Sampler} (hn : 2 ≤ s.cfg.noRepeatNgramSize)
    {prompt : List UInt32} {steps : ℕ} {out : List UInt32 × List (ModelTrace F32) × Bool}
    (h : sampleStopping a mcfg w stop m prompt steps s = .ok out) : Generated s.cfg.noRepeatNgramSize prompt out.1 := by
  unfold sampleStopping at h
  by_cases hp : prompt = []
  · rw [if_pos hp] at h
    cases h
  · rw [if_neg hp] at h
    rcases hrun : forwardCached a mcfg w (Cache.new a mcfg w 1) (prompt.map UInt32.toNat) with ⟨_ | tr, cache⟩
    · rw [hrun] at h
      cases h
    · rw [hrun] at h
      dsimp only at h
      have hnil : prompt = prompt ++ [] := (List.append_nil prompt).symm
      rw [hnil] at h
      exact sampleLoop_generated hexp hvocab hn (forwardCached_lastLogits hrun) .nil h

end Loop

/-! ### The specification -/

/-- **`no_repeat_ngram` masks exactly the tokens that would repeat an n-gram**,
and leaves every other logit. Where each token is drawn from what it leaves, no
token ends an n-gram that was there before it; so it is in every run of
`sample_stopping` that has it. -/
theorem noRepeatNgram_spec {n : ℕ} (hn : 2 ≤ n) (m : Libm) (hexp : m.exp nan = nan) :
    (∀ (logits : List F32) (history : List UInt32),
      (noRepeatNgram logits history n).length = logits.length ∧
      (∀ t : UInt32, t.toNat < logits.length → (noRepeatNgram logits history n)[t.toNat]? =
        if lastN (n - 1) history ++ [t] <:+: history then some filtered else logits[t.toNat]?) ∧
      ∀ i, (∀ t : UInt32, t.toNat ≠ i) → (noRepeatNgram logits history n)[i]? = logits[i]?) ∧
    (∀ prompt generated : List UInt32, Generated n prompt generated → Fresh n prompt generated) ∧
    ∀ (a : Arith F32 F64) (mcfg : ModelConfig F32) (w : ModelWeights F32) (stop prompt : List UInt32) (steps : ℕ)
      (s : Sampler) (out : List UInt32 × List (ModelTrace F32) × Bool), mcfg.vocab ≤ 2 ^ 32 →
      s.cfg.noRepeatNgramSize = n → sampleStopping a mcfg w stop m prompt steps s = .ok out → Fresh n prompt out.1 := by
  refine ⟨fun logits history => ⟨length_noRepeatNgram _ _ _, fun t ht => getElem?_noRepeatNgram hn ht,
    fun i hi => getElem?_noRepeatNgram_of_ne hi⟩, fun prompt generated h => fresh_of_generated hn h, ?_⟩
  rintro a mcfg w stop prompt steps s out hvocab rfl h
  exact fresh_of_generated hn (sampleStopping_generated hexp hvocab hn h)

/-- After 1, 2, 1 the token 2 would repeat a pair, and 3 would not. -/
theorem noRepeatNgram_spec_pair : (noRepeatNgram [zero, zero, zero, zero] [1, 2, 1] 2)[2]? = some filtered ∧
    Fresh 2 [1, 2, 1] [3] ∧ Fresh 2 [1, 2, 1] [] := by
  have hexp : seriesLibm.exp nan = nan := by decide +kernel
  obtain ⟨hmask, hruns, -⟩ := noRepeatNgram_spec (le_refl 2) seriesLibm hexp
  obtain ⟨-, htoken, -⟩ := hmask [zero, zero, zero, zero] [1, 2, 1]
  have hopen : Open (noRepeatNgram [zero, zero, zero, zero] ([1, 2, 1] ++ []) 2) 3 := ⟨zero, by decide, by decide⟩
  refine ⟨(htoken 2 (by decide)).trans (if_pos ⟨[], [1], rfl⟩), hruns _ _ (.snoc _ .nil hopen), hruns _ _ .nil⟩

end Qwen
end Siphon
