/-
# Callers that read the tensors one after the other

A caller that asks for the next tensor when the current one has been read
leaves no chunk behind: those in front of the current tensor are complete.
Where the layout keeps colliding chunks apart (`Layout.Guarded`), a chunk is
then posted only when every earlier chunk that it collides with is complete,
and no order of the reads, the copies and the exchanges can do harm
(`in_order_delivered`). The tensors that a caller skips are what
`gather_lands_late` needs.
-/
import Siphon.Layout.Anchors
import Siphon.Ranks.Orders

namespace Siphon
namespace Ranks

open Rounding Memory Io Siphon.Runtime

/-- A rank's caller stays at its tensor, or goes on to the next one when the
chunks of its tensor have been read, as they are when it is returned. -/
def inOrder (w : Setup) (s : World) : Action → Bool
  | .thread rank (.getTensorPtr index) => decide (index ≤ (s.loaders rank).1.currentTensorIndex ∨
      index = (s.loaders rank).1.currentTensorIndex + 1 ∧
        w.config.lastChunkId (s.loaders rank).1.currentTensorIndex ≤ (s.loaders rank).1.chunkRead)
  | _ => true

/-- The chunks of the tensors that the rank has left are complete. -/
def LeftBehind (w : Setup) (v : Loader) : Prop :=
  ∀ i < v.currentTensorIndex, ∀ c : ℕ, c ≤ w.config.lastChunkId i → c ∈ v.completed

/-- A call or a step of the thread, or a completion. -/
theorem LeftBehind.step {w : Setup} (hw : w.Ok) {v v' : Loader × Pc} {a : Runtime.Action}
    (hr : (loader w.config).Reachable v) (h : LeftBehind w v.1)
    (ha : ∀ index, a = .getTensorPtr index → index ≤ v.1.currentTensorIndex ∨
      index = v.1.currentTensorIndex + 1 ∧ w.config.lastChunkId v.1.currentTensorIndex ≤ v.1.chunkRead)
    (hs : Runtime.step w.config v a = some v') : LeftBehind w v'.1 := by
  cases a with
  | tryStep =>
    simp only [Runtime.step] at hs
    split_ifs at hs
    cases hs
    exact h
  | pollReadChunk =>
    simp only [Runtime.step] at hs
    split_ifs at hs
    cases hs
    exact h
  | getTensorPtr index =>
    simp only [Runtime.step] at hs
    split_ifs at hs with hidle
    cases hs
    have hrest : Rest w.config (v.1.chunkRead + 1) v.1 := by
      have hi := Runtime.reachable_inv hw.sound hr
      rwa [hidle] at hi
    unfold getTensorPtr
    split_ifs
    · exact h
    · exact h
    · intro i hlt c hc
      simp only at hlt
      rcases ha index rfl with hle | ⟨rfl, hread⟩
      · exact h i (hlt.trans_le hle) c hc
      · rcases Nat.lt_succ_iff_lt_or_eq.mp hlt with hlt | rfl
        · exact h i hlt c hc
        · exact hrest.done c (by omega)
  | tick =>
    have ht : tick w.config v.1 v.2 = some (v'.1, v'.2) := hs
    have hcur := tick_currentTensorIndex ht
    obtain ⟨-, hcomp⟩ := tick_posted ht
    intro i hi c hc
    rw [hcomp]
    exact h i (hcur ▸ hi) c hc
  | complete c =>
    simp only [Runtime.step] at hs
    split_ifs at hs
    cases hs
    exact fun i hi c hc => Finset.mem_insert_of_mem (h i hi c hc)

/-- A caller that reads in order leaves nothing behind. -/
theorem leftBehind_of_reachable {w : Setup} (hw : w.Ok) {buffers : ℕ → RankBuffers} {s : World}
    (h : ((world w buffers).restrict (inOrder w)).Reachable s) :
    Base w s ∧ ∀ r < w.g.worldSize, LeftBehind w (s.loaders r).1 := by
  refine h.invariant (I := fun s => Base w s ∧ ∀ r < w.g.worldSize, LeftBehind w (s.loaders r).1) ?_ ?_
  · exact ⟨init_base w buffers, fun r _ i hi => absurd hi (Nat.not_lt_zero i)⟩
  rintro s a s' ⟨hb, hleft⟩ hs
  obtain ⟨hord, hs⟩ := Machine.restrict_step.mp hs
  refine ⟨hb.step hw hs, fun r hr => ?_⟩
  cases a with
  | thread rank a =>
    simp only [world, step, Option.ite_none_right_eq_some] at hs
    obtain ⟨-, hs⟩ := hs
    obtain ⟨v, hv, rfl⟩ := Option.map_eq_some_iff.mp hs
    by_cases hrr : r = rank
    · subst hrr
      rw [threadStep_self]
      refine (hleft r hr).step hw (hb.loader r hr) (fun index ha => ?_) hv
      subst ha
      exact of_decide_eq_true hord
    · rw [threadStep_of_ne hrr]
      exact hleft r hr
  | read rank k n =>
    simp only [world, step, Option.ite_none_right_eq_some, Option.some.injEq] at hs
    obtain ⟨-, rfl⟩ := hs
    exact hleft r hr
  | copy rank k =>
    simp only [world, step, Option.ite_none_right_eq_some, Option.some.injEq] at hs
    obtain ⟨-, rfl⟩ := hs
    exact hleft r hr
  | send src dst k =>
    simp only [world, step, Option.ite_none_right_eq_some, Option.some.injEq] at hs
    obtain ⟨-, rfl⟩ := hs
    exact hleft r hr
  | receive src dst k =>
    simp only [world, step, Option.ite_none_right_eq_some, Option.some.injEq] at hs
    obtain ⟨-, rfl⟩ := hs
    exact hleft r hr

/-- A posted chunk, and an earlier one that a tensor keeps apart from it. -/
theorem finished_of_keptApart {w : Setup} (hw : w.Ok) {s : World} (hb : Base w s) {r k₀ k : ℕ}
    (hr : r < w.g.worldSize) (hleft : LeftBehind w (s.loaders r).1) (hk : k ∈ s.posted r)
    (h : Layout.KeptApart w.tensors k₀ k) : Finished w s r k₀ := by
  obtain ⟨t, ht, hlast, hpre⟩ := h
  obtain ⟨i, hi⟩ := List.getElem?_of_mem ht
  obtain ⟨t₀, -, hcur⟩ := exists_current hw.sound hw.nonempty (hb.loader r hr)
  have hle := posted_le hw.sound (hb.loader r hr) hk hcur
  -- the tensor is behind the current one, whose watermark the chunk has not passed
  have hlt : i < (s.loaders r).1.currentTensorIndex := by
    by_contra hno
    have := hw.sound.prefetch_le (not_lt.mp hno) hcur hi
    omega
  refine hb.completed r hr k₀ (hleft i hlt k₀ ?_)
  rw [lastChunkId_eq hi]
  exact hlast

/-- Every file but the first starts its tensors on a page, as in a checkpoint
of one file: callers that read in order keep the chunks in flight apart. -/
theorem serves_of_inOrder {w : Setup} {offs : List (ℕ × ℕ)} (h : w.Opened offs)
    (hpages : Layout.PageStarts w.g offs) (h16 : firstTensorAlignment ∣ w.g.rankAlignment)
    {buffers : ℕ → RankBuffers} {s : World} (hs : ((world w buffers).restrict (inOrder w)).Reachable s) {r : ℕ}
    (hr : r < w.g.worldSize) : Serves w s r := by
  obtain ⟨l, hl, htl, hcl⟩ := h.layout
  obtain ⟨l1, hl1, hguard⟩ := Layout.computeLayout_guarded w.g offs h.valid h.nonempty hpages h16
  obtain rfl := Except.ok.inj (hl.symm.trans hl1)
  rw [htl, hcl] at hguard
  have hap := hs.restrict_mono (q := apart w) fun s a s' _ hreach _ hstep => by
    refine apart_of_copy fun rank k ha k₀ hk₀ hlt ho => ?_
    subst ha
    obtain ⟨hrank, hk⟩ := copy_guard hstep
    obtain ⟨hb, hleft⟩ := leftBehind_of_reachable h.ok hreach
    have hget : ∀ {k : ℕ}, k ∈ s.posted rank → w.chunks[k]? = some (w.chunk k) := fun {k} hk => by
      have : k < w.chunks.length := hb.has h.ok hrank hk
      simp [Setup.chunk, List.getD_eq_getElem?_getD, this]
    exact finished_of_keptApart h.ok hb hrank (hleft rank hrank) hk
      (hguard k₀ k _ _ (hget hk₀) (hget hk) hlt ho)
  exact (clean_of_reachable h.ok hap.2).serves h hr

/-- **Reading in order.** Every file but the first starts its tensors on a
page, as in a checkpoint of one file. If every rank's caller asks for the
tensors one after the other, the returned tensors have their bytes on every
rank, in every order of the reads, the copies and the exchanges, however far
the ranks are apart. -/
theorem in_order_delivered (w : Setup) (offs : List (ℕ × ℕ)) (h : w.Opened offs)
    (hpages : Layout.PageStarts w.g offs) (h16 : firstTensorAlignment ∣ w.g.rankAlignment)
    (buffers : ℕ → RankBuffers) (s : World) (hs : ((world w buffers).restrict (inOrder w)).Reachable s) (r : ℕ)
    (hr : r < w.g.worldSize) : Serves w s r :=
  serves_of_inOrder h hpages h16 hs hr

/-- Both tensors one after the other. Rank 1 copies and sends its slices, and
rank 0 has the large tensor when rank 1 has not received a byte of it. -/
def bothInOrder : List Action :=
  firstTensor ++
  [0, 1].flatMap (fun r => .thread r .tick :: .thread r (.getTensorPtr 1) :: List.replicate 10 (.thread r .tick)) ++
  [2, 1].flatMap (fun k => [.read 0 k 65536, .read 1 k 65536, .copy 0 k, .copy 1 k, .send 1 0 k, .receive 1 0 k,
    .send 0 1 k, .thread 0 (.complete k)]) ++ List.replicate 4 (.thread 0 .tick)

theorem in_order_delivered_bothInOrder : Layout.PageStarts twoRanks [(0, 4096), (0, 49152), (0, 311296)] ∧
    firstTensorAlignment ∣ twoRanks.rankAlignment ∧ ∃ s,
      ((world smallThenLarge zeroBuffers).restrict (inOrder smallThenLarge)).Reachable s ∧
        (s.loaders 0).2 = .returned 1 ∧ Serves smallThenLarge s 0 := by
  have hpages : Layout.PageStarts twoRanks [(0, 4096), (0, 49152), (0, 311296)] := by decide
  have h16 : firstTensorAlignment ∣ twoRanks.rankAlignment := by decide
  obtain ⟨s, hs, hp⟩ := ((world smallThenLarge zeroBuffers).restrict (inOrder smallThenLarge)).exists_reachable
    bothInOrder (fun s => decide ((s.loaders 0).2 = .returned 1)) (by decide +kernel)
  exact ⟨hpages, h16, s, hs, of_decide_eq_true hp,
    in_order_delivered smallThenLarge _ smallThenLarge_opened hpages h16 zeroBuffers s hs 0 (by decide)⟩

end Ranks
end Siphon
