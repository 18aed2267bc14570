/-
# Stopping early

`greedy` runs the whole sequence again for each token. `greedy_cached_stopping`
feeds the cache one token at a time, looks for a stop token before it keeps
one, and runs the model once more behind the last. The two read the same
logits at every step: what the cache holds is always the whole sequence so far
(`Behind`). So the second returns the tokens of the first, up to the first
stop token.

Key definitions: `greedy`, `Behind`.
Key theorems: `Behind.step`, `loops_agree`, `stopping_prefix`.
-/
import Siphon.Qwen.Cached
import Siphon.Qwen.Greedy

namespace Siphon
namespace Qwen

open Ieee Fallible

variable (a : Arith F32 F64) (mcfg : ModelConfig F32) (w : ModelWeights F32)

/-! ### The plain loop -/

/-- The loop of `greedy`. -/
def plainLoop : ℕ → List UInt32 → List UInt32 → List (ModelTrace F32) →
    Except DecodeError (List UInt32 × List (ModelTrace F32))
  | 0, _, generated, traces => .ok (generated, traces)
  | steps + 1, ids, generated, traces =>
    match forward a mcfg w (ids.map UInt32.toNat) with
    | .error e => .error (.model e)
    | .ok tr =>
      let nxt := UInt32.ofNat tr.argmaxLast
      plainLoop steps (ids ++ [nxt]) (generated ++ [nxt]) (traces ++ [tr])

/-- `greedy` -/
def greedy (prompt : List UInt32) (steps : ℕ) : Except DecodeError (List UInt32 × List (ModelTrace F32)) :=
  plainLoop a mcfg w steps prompt [] []

/-! ### What the cache holds -/

/-- The cache has read `ids`, and `tr` ends with the logits of the pass over all of them. -/
structure Behind (ids : List UInt32) (tr : ModelTrace F32) (cache : Cache F32) : Prop where
  nonempty : ids ≠ []
  range : ∀ id ∈ ids.map UInt32.toNat, id < mcfg.vocab
  read : ∃ full, forwardCached a mcfg w (Cache.new a mcfg w 1) (ids.map UInt32.toNat) = (.ok full, cache) ∧
    full.lastLogits = tr.lastLogits

variable {a mcfg w} {ids : List UInt32} {tr tr' : ModelTrace F32} {cache : Cache F32}

theorem finish_vocab {t : ℕ} {e h : List F32} {layers : List (List F32)} (hf : finish a mcfg w t e layers h = .ok tr) :
    tr.vocab = mcfg.vocab := by
  obtain ⟨_, -, hf⟩ := bind_eq_ok hf
  obtain ⟨_, -, hf⟩ := bind_eq_ok hf
  rw [← Except.ok.inj hf]

theorem forwardCached_vocab {cache' : Cache F32} {tokens : List ℕ}
    (h : forwardCached a mcfg w cache tokens = (.ok tr, cache')) : tr.vocab = mcfg.vocab := by
  unfold forwardCached at h
  dsimp only at h
  split at h
  · cases (Prod.mk.inj h).1
  split at h
  · cases (Prod.mk.inj h).1
  split at h
  · cases (Prod.mk.inj h).1
  split at h
  · cases (Prod.mk.inj h).1
  · exact finish_vocab (Prod.mk.inj h).1

theorem length_lastLogits {k n : ℕ} (h : tr.Sized mcfg k n) (hn : n ≠ 0) (hv : tr.vocab = mcfg.vocab) :
    tr.lastLogits.length = mcfg.vocab := by
  obtain ⟨n, rfl⟩ := Nat.exists_eq_succ_of_ne_zero hn
  unfold ModelTrace.lastLogits
  rw [List.length_drop, h.logits, h.t, hv, Nat.succ_sub_one, Nat.succ_mul, Nat.add_sub_cancel_left]

/-- A trace ends with the logits of the last token that was put behind it. -/
theorem lastLogits_append {k n : ℕ} (h : tr.Sized mcfg k n) (hv : tr.vocab = mcfg.vocab) (h' : tr'.Sized mcfg k 1) :
    (tr.append tr').lastLogits = tr'.lastLogits := by
  unfold ModelTrace.lastLogits ModelTrace.append
  dsimp only
  rw [h.t, h'.t, Nat.add_sub_cancel, hv, Nat.sub_self, Nat.zero_mul, List.drop_zero]
  exact List.drop_left' h.logits

section Steps

variable (hw : WellShaped mcfg w) (h : Behind a mcfg w ids tr cache)
include hw h

/-- The next token is one of the vocabulary. -/
theorem Behind.next_lt : (UInt32.ofNat tr.argmaxLast).toNat < mcfg.vocab := by
  obtain ⟨full, hrun, hlast⟩ := h.read
  have hne : ids.map UInt32.toNat ≠ [] := fun hnil => h.nonempty (List.map_eq_nil_iff.mp hnil)
  obtain ⟨full', cache', hrun', hsize, -⟩ := forwardCached_resume a hw (Cache.new_fits a) hne h.range
  obtain rfl : full' = full := Except.ok.inj (Prod.mk.inj (hrun'.symm.trans hrun)).1
  have hlen : tr.lastLogits.length = mcfg.vocab := by
    rw [← hlast]
    exact length_lastLogits hsize (fun h0 => hne (List.length_eq_zero_iff.mp h0)) (forwardCached_vocab hrun)
  obtain ⟨id, hid⟩ := List.exists_mem_of_ne_nil _ hne
  have hpos : 0 < mcfg.vocab := Nat.lt_of_le_of_lt (Nat.zero_le id) (h.range id hid)
  have hlogits : tr.lastLogits ≠ [] := List.length_pos_iff.mp (hlen ▸ hpos)
  calc (UInt32.ofNat tr.argmaxLast).toNat = tr.argmaxLast % 2 ^ 32 := UInt32.toNat_ofNat
    _ ≤ tr.argmaxLast := Nat.mod_le _ _
    _ < tr.lastLogits.length := argmax_lt hlogits
    _ = mcfg.vocab := hlen

/-- The pass over the whole sequence ends with the same logits. -/
theorem Behind.forward : ∃ full, Qwen.forward a mcfg w (ids.map UInt32.toNat) = .ok full ∧
    full.lastLogits = tr.lastLogits := by
  obtain ⟨full, hrun, hlast⟩ := h.read
  exact ⟨full, forward_eq_cached a hw (fun hnil => h.nonempty (List.map_eq_nil_iff.mp hnil)) hrun, hlast⟩

/-- **One more token**: the cache reads it, and is behind the longer sequence. -/
theorem Behind.step {nxt : UInt32} (hlt : nxt.toNat < mcfg.vocab) :
    ∃ tr' cache', forwardCached a mcfg w cache [nxt.toNat] = (.ok tr', cache') ∧
      Behind a mcfg w (ids ++ [nxt]) tr' cache' := by
  obtain ⟨full, hrun, -⟩ := h.read
  have hne : ids.map UInt32.toNat ≠ [] := fun hnil => h.nonempty (List.map_eq_nil_iff.mp hnil)
  have hone : ∀ id ∈ [nxt.toNat], id < mcfg.vocab := List.forall_mem_singleton.mpr hlt
  obtain ⟨full', cache0, hrun0, hsize, hfit, -, hgoes⟩ := forwardCached_resume a hw (Cache.new_fits a) hne h.range
  obtain ⟨hfull, rfl⟩ := Prod.mk.inj (hrun0.symm.trans hrun)
  obtain rfl : full' = full := Except.ok.inj hfull
  obtain ⟨tr', cache', hrun', hboth⟩ := hgoes (List.cons_ne_nil _ _) hone
  obtain ⟨tr1, cache1, hrun1, hsize', -⟩ := forwardCached_resume a hw hfit (List.cons_ne_nil _ _) hone
  obtain rfl : tr1 = tr' := Except.ok.inj (Prod.mk.inj (hrun1.symm.trans hrun')).1
  have hids : (ids ++ [nxt]).map UInt32.toNat = ids.map UInt32.toNat ++ [nxt.toNat] := List.map_append
  refine ⟨tr1, cache', hrun', List.append_ne_nil_of_left_ne_nil h.nonempty _, ?_, full'.append tr1, ?_, ?_⟩
  · rw [hids]
    exact List.forall_mem_append.mpr ⟨h.range, hone⟩
  · rw [hids]
    exact hboth
  · exact lastLogits_append hsize (forwardCached_vocab hrun) hsize'

end Steps

/-! ### The two loops -/

/-- **What the two loops do from the same sequence on**: the plain one ends after all its steps, and the cached one
keeps its tokens up to the first stop token, with traces that end with the same logits. -/
theorem loops_agree (hw : WellShaped mcfg w) (stop : List UInt32) :
    ∀ (steps : ℕ) {ids : List UInt32} {tr : ModelTrace F32} {cache : Cache F32} (generated kept : List UInt32)
      (traces keptTraces : List (ModelTrace F32)), Behind a mcfg w ids tr cache → ∃ tokens trs keptTrs,
      plainLoop a mcfg w steps ids generated traces = .ok (generated ++ tokens, traces ++ trs) ∧
      tokens.length = steps ∧ trs.length = steps ∧
      greedyLoop a mcfg w stop steps tr cache kept keptTraces =
        .ok (kept ++ tokens.takeWhile (· ∉ stop), keptTraces ++ keptTrs, decide (∃ t ∈ tokens, t ∈ stop)) ∧
      List.Forall₂ (fun tr' tr => tr'.lastLogits = tr.lastLogits) keptTrs
        (trs.take (tokens.takeWhile (· ∉ stop)).length)
  | 0, ids, tr, cache, generated, kept, traces, keptTraces, _ => by
    refine ⟨[], [], [], ?_, rfl, rfl, ?_, .nil⟩
    · rw [plainLoop, List.append_nil, List.append_nil]
    · rw [greedyLoop, List.takeWhile_nil, List.append_nil, List.append_nil]
      rfl
  | steps + 1, ids, tr, cache, generated, kept, traces, keptTraces, h => by
    obtain ⟨full, hfull, hlast⟩ := h.forward hw
    have hnext : full.argmaxLast = tr.argmaxLast := congrArg argmax hlast
    obtain ⟨tr', cache', hrun, h'⟩ := h.step hw (h.next_lt hw)
    obtain ⟨tokens, trs, keptTrs, hplain, htokens, htrs, hgreedy, hsame⟩ :=
      loops_agree hw stop steps (generated ++ [UInt32.ofNat tr.argmaxLast]) (kept ++ [UInt32.ofNat tr.argmaxLast])
        (traces ++ [full]) (keptTraces ++ [tr]) h'
    have hplain' : plainLoop a mcfg w (steps + 1) ids generated traces =
        .ok (generated ++ UInt32.ofNat tr.argmaxLast :: tokens, traces ++ full :: trs) := by
      rw [plainLoop, hfull]
      dsimp only
      rw [hnext, hplain, List.append_assoc, List.append_assoc]
      rfl
    by_cases hs : UInt32.ofNat tr.argmaxLast ∈ stop
    · refine ⟨_, _, [], hplain', congrArg Nat.succ htokens, congrArg Nat.succ htrs, ?_, ?_⟩
      · rw [greedyLoop, if_pos hs, List.takeWhile_cons_of_neg (by simpa using hs), List.append_nil, List.append_nil]
        simp [hs]
      · rw [List.takeWhile_cons_of_neg (by simpa using hs)]
        exact .nil
    · refine ⟨_, _, tr :: keptTrs, hplain', congrArg Nat.succ htokens, congrArg Nat.succ htrs, ?_, ?_⟩
      · rw [greedyLoop, if_neg hs, hrun]
        dsimp only
        rw [hgreedy, List.takeWhile_cons_of_pos (by simpa using hs), List.append_assoc, List.append_assoc]
        simp [hs]
      · rw [List.takeWhile_cons_of_pos (by simpa using hs), List.length_cons, List.take_succ_cons]
        exact .cons hlast.symm hsame

/-- **Cached decoding with a stop set is the beginning of plain decoding.** -/
theorem stopping_prefix (hw : WellShaped mcfg w) {prompt : List UInt32} (steps : ℕ) (stop : List UInt32) (hne : prompt ≠ [])
    (hrange : ∀ t ∈ prompt, t.toNat < mcfg.vocab) : ∃ tokens traces kept,
      greedy a mcfg w prompt steps = .ok (tokens, traces) ∧ tokens.length = steps ∧ traces.length = steps ∧
      greedyCachedStopping a mcfg w stop prompt steps =
        .ok (tokens.takeWhile (· ∉ stop), kept, decide (∃ t ∈ tokens, t ∈ stop)) ∧
      List.Forall₂ (fun tr' tr => tr'.lastLogits = tr.lastLogits) kept
        (traces.take (tokens.takeWhile (· ∉ stop)).length) := by
  have hids : prompt.map UInt32.toNat ≠ [] := fun hnil => hne (List.map_eq_nil_iff.mp hnil)
  have hin : ∀ id ∈ prompt.map UInt32.toNat, id < mcfg.vocab := List.forall_mem_map.mpr hrange
  obtain ⟨tr, cache, hrun, -⟩ := forwardCached_resume a hw (Cache.new_fits a) hids hin
  obtain ⟨tokens, traces, kept, hplain, htokens, htraces, hgreedy, hsame⟩ :=
    loops_agree hw stop steps [] [] [] [] ⟨hne, hin, tr, hrun, rfl⟩
  refine ⟨tokens, traces, kept, hplain, htokens, htraces, ?_, hsame⟩
  unfold greedyCachedStopping
  rw [if_neg hne, hrun]
  exact hgreedy

/-! ### A model of one layer -/

/-- Two tokens and one linear-attention layer. -/
def oneConfig : ModelConfig F32 where
  vocab := 2
  hidden := 1
  eps := zero
  gdn := ⟨1, 1, 1, 1, 1, 1, zero⟩
  attn := ⟨1, 1, 1, 1, 0, zero, zero⟩

def oneWeights : ModelWeights F32 where
  embedTokens := [ofNat 1, ofNat 2]
  finalNorm := [zero]
  lmHead := [ofNat 1, ofNat 2]
  layers := [⟨.linearAttention, ⟨[zero], [zero], ⟨[zero], [zero], [zero]⟩⟩,
    some ⟨[zero, zero, zero], [zero], [zero], [zero], [zero, zero, zero], [zero], [zero], [zero], [zero]⟩, none⟩]

theorem oneWeights_wellShaped : WellShaped oneConfig oneWeights := by
  refine ⟨rfl, rfl, rfl, List.forall_mem_singleton.mpr ⟨?_, _, rfl, rfl, ?_⟩⟩
  · constructor <;> decide
  · constructor <;> decide

theorem stopping_prefix_one : ∃ tokens traces kept,
    greedy floatArith oneConfig oneWeights [0] 3 = .ok (tokens, traces) ∧ tokens.length = 3 ∧
    greedyCachedStopping floatArith oneConfig oneWeights [1] [0] 3 =
      .ok (tokens.takeWhile (· ∉ [1]), kept, decide (∃ t ∈ tokens, t ∈ [1])) := by
  obtain ⟨tokens, traces, kept, hplain, hlen, -, hcached, -⟩ :=
    stopping_prefix (a := floatArith) oneWeights_wellShaped 3 [1] (List.cons_ne_nil 0 [])
      (List.forall_mem_singleton.mpr (by decide))
  exact ⟨tokens, traces, kept, hplain, hlen, hcached⟩

end Qwen
end Siphon
