/-
# The completion protocol is safe

What every run of the threads of `Io.Model` keeps: every completion is
counted once and by its own chunk, no `cuda_func` waits for a completion
that is gone, and none copies before its own read has completed
(`Protocol`). That the read then has the bytes of the rank's slice
(`Counted`) is so just where the completions of the run tell a failed read
(`completions_counted`): `io_uring`'s do, and AIO's do where `res` of an
`io_event` has a sign. Without one the test `res < 0` never holds, the
negative `errno` is a large number of bytes, and the copy is made
(`failed_read_copied`).
-/
import Siphon.Io.Invariant

namespace Siphon
namespace Io

open Census

section Run

variable {cfg : Config} {s s' : State}

theorem inv_init (cfg : Config) : Inv cfg (io cfg).init := by
  have hcensus : ∀ k, unsubmitted cfg (io cfg).init k + (io cfg).init.submitted k = 0 := fun _ => rfl
  refine ⟨⟨by simp [io], fun k => ?_, fun k hd => ?_, fun _ => rfl, fun _ k hk => (by cases hk), fun k hk => ?_⟩,
    ⟨by simp [io], fun k hk => ?_, fun c hc => ?_, fun k hk => ?_, fun f hf => (by cases hf),
      fun f hf => (by cases hf)⟩,
    ⟨fun hp => absurd rfl hp, Nat.zero_le _, rfl, fun k hk => ?_, fun j k hk => ?_⟩⟩
  · rw [hcensus, if_neg (by simp [io, State.prepared])]
  · cases hd with
    | post n h => cases h
    | submitCuda h ha => cases h
    | lastPage k n h => cases h
    | result k h => simp [io] at h
    | queued f h ha => simp [io] at h
    | reading f h => cases h
  · rcases hk with hk | hk
    · simp [io] at hk
    · cases hk
  · simp [io, State.counted] at hk
  · simp [io] at hc
  · simp [io] at hk
  · simp [io] at hk
  · simp [io, State.windowed] at hk

theorem Inv.step {a : Action} (h : Inv cfg s) (hs : step cfg s a = some s') : Inv cfg s' := by
  cases a with
  | post ret => exact h.postStep hs
  | lastPage ret => exact h.lastPageStep hs
  | complete c => exact h.complete hs
  | cuda ret => exact h.cudaStep hs
  | wait => exact h.waitStep hs

theorem reachable_inv (h : (io cfg).Reachable s) : Inv cfg s :=
  h.invariant (inv_init cfg) fun _ _ _ hi hs => hi.step hs

theorem submitCnt_eq_zero {k : ℕ} : cfg.submitCnt k = 0 ↔ (cfg.params k).rankSize = 0 := by
  unfold Config.submitCnt
  by_cases hpos : 0 < (cfg.params k).rankSize
  · simp [hpos, hpos.ne']
  · simp [Nat.eq_zero_of_not_pos hpos]

/-- The completions of the queue, of the cuda thread and of the past are of
different chunks. -/
theorem Inv.nodup (h : Inv cfg s) : ((s.processed ++ s.hand ++ s.completions).map (·.chunkId)).Nodup := by
  rw [List.nodup_iff_count_le_one]
  intro k
  have hle := (h.reads.submitted_le k).trans (submitCnt_le cfg k)
  rw [List.map_append, List.map_append, List.count_append, List.count_append]
  unfold State.submitted State.inFlight State.counts at hle
  omega

/-- A `cuda_func` that waits has its own completion still to come. -/
theorem Inv.inFlight_of_wait (h : Inv cfg s) {f : CudaFunc} (hc : s.cuda = .wait f) :
    0 < s.inFlight f.chunkId := by
  have hdue := h.reads.due f.chunkId (.reading f (by rw [hc]; rfl))
  have hpos : 0 < (s.unfinished f.chunkId).toNat := h.counts.waiting f hc
  have hrun := h.order.running_lt (show s.cuda.func? = some f by rw [hc]; rfl)
  have hcount := h.counts.counter f.chunkId (hrun.trans_le (tasks_le_counted s))
  unfold State.submitted at hdue
  omega

theorem Inv.coming (h : Inv cfg s) {f : CudaFunc} (hc : s.cuda = .wait f) :
    f.chunkId ∈ s.kernel ∨ f.chunkId ∈ s.completions.map (·.chunkId) := by
  have hflight := h.inFlight_of_wait hc
  have hhand : s.hand = [] := by simp [State.hand, hc]
  rw [State.inFlight, hhand, List.map_nil, List.count_nil] at hflight
  rw [← List.count_pos_iff, ← List.count_pos_iff]
  omega

theorem Inv.own_read (h : Inv cfg s) {k : ℕ} (hk : k ∈ s.copied) (hpos : 0 < (cfg.params k).rankSize) :
    ∃ c ∈ s.processed, c.chunkId = k ∧ ((cfg.params k).rankSize : ℤ) ≤ cfg.readRes c := by
  have hcount := h.counts.copied k hk
  have hcnt : 0 < s.counts k := by
    rw [hcount, Nat.pos_iff_ne_zero, Ne, submitCnt_eq_zero]
    omega
  obtain ⟨c, hc, rfl⟩ := List.mem_map.mp (List.count_pos_iff.mp hcnt)
  exact ⟨c, hc, rfl, h.counts.enough c hc⟩

/-- The chunks whose reads are under way are less than `io_depth` apart, so
that they have different windows. -/
theorem Inv.window_apart (h : Inv cfg s) {j k : ℕ} (hj : 0 < unsubmitted cfg s j + s.inFlight j)
    (hk : 0 < unsubmitted cfg s k + s.inFlight k) : k < j + cfg.geometry.ioDepth := by
  by_contra hfar
  have hcj := h.reads.census j
  have hck := h.reads.census k
  unfold State.submitted at hcj hck
  have hlt : k < s.prepared := by
    by_contra hge
    rw [if_neg hge] at hck
    omega
  have hwin : s.prepared ≤ s.windowed := by
    cases hp : s.post <;> simp [State.prepared, State.windowed, State.current, hp]
  have hcopied := h.order.clear j k (hlt.trans_le hwin) (not_lt.mp hfar)
  have := h.counts.copied j hcopied
  split_ifs at hcj <;> omega

end Run

/-! ### The results of the reads -/

/-- The loop body can tell from `res` whether the read failed. -/
def Config.Tells (cfg : Config) (c : Completion) : Prop :=
  cfg.backend = .uring ∨ cfg.resSigned = true ∨ 0 ≤ c.res

instance (cfg : Config) (c : Completion) : Decidable (cfg.Tells c) :=
  inferInstanceAs (Decidable (_ ∨ _))

theorem Config.Tells.readRes_le {cfg : Config} {c : Completion} (h : cfg.Tells c) : cfg.readRes c ≤ c.res := by
  unfold Config.readRes
  cases hb : cfg.backend with
  | uring => exact le_rfl
  | aio =>
    by_cases hs : cfg.resSigned = true
    · simp [hs]
    · have hres : 0 ≤ c.res := by simpa [Config.Tells, hb, hs] using h
      simp only [hs, Bool.false_eq_true, if_false]
      omega

/-- The completions that the kernel has delivered, in order. -/
def State.delivered (s : State) : List Completion := s.processed ++ s.hand ++ s.completions

/-- What an action delivers. -/
def Action.delivers : Action → List Completion
  | .complete c => [c]
  | _ => []

section Delivered

variable {cfg : Config} {s s' : State}

theorem prepareRead_delivered (cfg : Config) (s : State) : (prepareRead cfg s).delivered = s.delivered := by
  unfold prepareRead
  split
  · rfl
  · split
    · split <;> rfl
    · rfl

theorem submitRead_delivered {submitted : ℕ} {ret : ℤ} (h : submitRead cfg submitted ret s = some s') :
    s'.delivered = s.delivered := by
  unfold submitRead at h
  split at h
  · cases h
    rfl
  · split at h <;> split at h <;> cases h <;> rfl

/-- The loader thread delivers nothing. -/
theorem postStep_delivered {ret : ℤ} (h : postStep cfg ret s = some s') : s'.delivered = s.delivered := by
  unfold postStep at h
  by_cases herr : s.postError.isSome = true
  · rw [if_pos herr] at h
    cases h
  rw [if_neg herr] at h
  split at h
  · split_ifs at h
    cases h
    rfl
  · simp only [waitWindow] at h
    split_ifs at h
    cases h
    rfl
  · cases h
    exact prepareRead_delivered cfg s
  · cases h
    rfl
  · split_ifs at h
    · cases h
      rfl
    · cases h
      rfl
    · exact submitRead_delivered h
  · cases h
    rfl
  · cases h
    rfl

theorem lastPageStep_delivered {ret : ℤ} (h : lastPageStep cfg ret s = some s') :
    s'.delivered = s.delivered := by
  unfold lastPageStep at h
  by_cases herr : s.lastPageError.isSome = true
  · rw [if_pos herr] at h
    cases h
  rw [if_neg herr] at h
  split at h
  · cases h
  · cases h
    rfl
  · split_ifs at h <;> cases h <;> rfl

theorem takeCompletions_delivered {f : CudaFunc} {ret : ℤ} (hc : s.cuda = .wait f)
    (h : takeCompletions cfg f ret s = some s') : s'.delivered = s.delivered := by
  unfold takeCompletions at h
  split at h
  · split_ifs at h
    · cases h
      rfl
    · split at h
      · cases h
      · rename_i c rest hq
        cases h
        simp [State.delivered, State.hand, hc, hq]
  · split_ifs at h
    · cases h
      rfl
    · cases h
      simp [State.delivered, State.hand, hc]

theorem countCompletion_delivered {f : CudaFunc} {c : Completion} {es : List Completion}
    (hc : s.cuda = .events f (c :: es)) : (countCompletion cfg f c es s).delivered = s.delivered := by
  unfold countCompletion
  split_ifs
  · rfl
  · rfl
  · simp [State.delivered, State.hand, hc]

/-- A completion goes from the queue to the cuda thread, and is counted. -/
theorem cudaStep_delivered {ret : ℤ} (h : cudaStep cfg ret s = some s') : s'.delivered = s.delivered := by
  unfold cudaStep at h
  by_cases herr : s.cudaError.isSome = true
  · rw [if_pos herr] at h
    cases h
  rw [if_neg herr] at h
  split at h
  · rename_i hc
    split at h
    · cases h
    · rename_i f rest _
      cases h
      cases hf : f.aioReq <;> simp [State.delivered, State.hand, hc]
  · rename_i f hc
    split_ifs at h
    cases h
    simp [State.delivered, State.hand, hc]
  · rename_i f hc
    cases h
    by_cases hpos : 0 < s.unfinished f.chunkId <;> simp [State.delivered, State.hand, hc, hpos]
  · rename_i f hc
    exact takeCompletions_delivered hc h
  · rename_i f hc
    cases h
    simp [State.delivered, State.hand, hc]
  · rename_i f c es hc
    cases h
    exact countCompletion_delivered hc
  · rename_i f hc
    cases h
    simp [State.delivered, State.hand, hc]

theorem step_delivered (cfg : Config) (s : State) (a : Action) (s' : State) (h : step cfg s a = some s') :
    s'.delivered = s.delivered ++ a.delivers := by
  cases a with
  | post ret => simpa [Action.delivers] using postStep_delivered h
  | lastPage ret => simpa [Action.delivers] using lastPageStep_delivered h
  | complete c =>
    simp only [step, complete] at h
    split_ifs at h
    cases h
    exact (List.append_assoc _ _ _).symm
  | cuda ret => simpa [Action.delivers] using cudaStep_delivered h
  | wait =>
    simp only [step, waitStep] at h
    split at h
    · cases h
    · split_ifs at h
      cases h
      simp [Action.delivers, State.delivered, State.hand]

/-- What a run delivers. -/
theorem delivered_exec {l : List Action} (h : (io cfg).exec l (io cfg).init = some s) :
    s.delivered = l.flatMap Action.delivers :=
  Machine.exec_append (m := io cfg) (step_delivered cfg) l h

theorem mem_delivered {l : List Action} (h : (io cfg).exec l (io cfg).init = some s) {c : Completion} :
    c ∈ s.delivered ↔ .complete c ∈ l := by
  rw [delivered_exec h, List.mem_flatMap]
  constructor
  · rintro ⟨a, ha, hc⟩
    cases a <;> simp [Action.delivers] at hc
    exact hc ▸ ha
  · exact fun hc => ⟨_, hc, List.mem_singleton_self c⟩

end Delivered

/-- What every state keeps. -/
structure Protocol (cfg : Config) (s : State) : Prop where
  /-- A count is `submit_cnt` less the completions of its own chunk. -/
  counter : ∀ k < s.counted, (s.unfinished k).toNat + s.counts k = cfg.submitCnt k
  /-- A decrement finds 1. -/
  decrement : ∀ f c es, s.cuda = .events f (c :: es) → s.unfinished c.chunkId = 1
  /-- There is one completion of a chunk. -/
  once : ((s.processed ++ s.hand ++ s.completions).map (·.chunkId)).Nodup
  /-- A `cuda_func` waits for a completion that is still to come, or there. -/
  waits : ∀ f, s.cuda = .wait f →
    f.chunkId ∉ s.processed.map (·.chunkId) ∧
      (f.chunkId ∈ s.kernel ∨ f.chunkId ∈ s.completions.map (·.chunkId))
  /-- A chunk is copied after its own read has completed, with enough bytes if
  `res` tells. -/
  copies : ∀ k ∈ s.copied, 0 < (cfg.params k).rankSize →
    ∃ c ∈ s.processed, c.chunkId = k ∧ (cfg.Tells c → ((cfg.params k).rankSize : ℤ) ≤ c.res)
  /-- An empty slice has no read, and its `cuda_func` does not wait. -/
  empty : ∀ k, (cfg.params k).rankSize = 0 → unsubmitted cfg s k + s.submitted k = 0 ∧
    ∀ f, s.cuda = .wait f → f.chunkId ≠ k
  /-- At most `io_depth` reads are under way, in different windows. -/
  windows : ∀ j k, 0 < unsubmitted cfg s j + s.inFlight j → 0 < unsubmitted cfg s k + s.inFlight k →
    k < j + cfg.geometry.ioDepth

/-- What every state should keep. -/
structure Counted (cfg : Config) (s : State) : Prop extends Protocol cfg s where
  /-- A chunk is copied after its own read has completed, with enough bytes. -/
  enough : ∀ k ∈ s.copied, 0 < (cfg.params k).rankSize →
    ∃ c ∈ s.processed, c.chunkId = k ∧ ((cfg.params k).rankSize : ℤ) ≤ c.res

section Safe

variable {cfg : Config} {s : State}

theorem Inv.protocol (hi : Inv cfg s) : Protocol cfg s := by
  refine
    { counter := hi.counts.counter
      decrement := fun f c es hc => ?_
      once := hi.nodup
      waits := fun f hc => ⟨fun hmem => ?_, hi.coming hc⟩
      copies := fun k hk hpos => ?_
      empty := fun k hk => ?_
      windows := fun j k hj hk => hi.window_apart hj hk }
  · have hhand : s.hand = c :: es := by simp [State.hand, hc]
    refine (hi.unfinished_eq_one ?_).1
    simp only [State.inFlight, hhand, count_map_cons, if_true]
    omega
  · have hpos : 0 < s.counts f.chunkId := List.count_pos_iff.mpr hmem
    have hzero := (hi.unfinished_eq_one (hi.inFlight_of_wait hc)).2.1
    omega
  · obtain ⟨c, hc, hck, hle⟩ := hi.own_read hk hpos
    exact ⟨c, hc, hck, fun ht => hle.trans ht.readRes_le⟩
  · have hzero : unsubmitted cfg s k + s.submitted k = 0 := by
      rw [hi.reads.census, submitCnt_eq_zero.mpr hk, ite_self]
    refine ⟨hzero, ?_⟩
    rintro f hc rfl
    have hflight := hi.inFlight_of_wait hc
    unfold State.submitted at hzero
    omega

theorem count_chunkId_pos {c : Completion} {l : List Completion} (hc : c ∈ l) :
    0 < (l.map (·.chunkId)).count c.chunkId :=
  List.count_pos_iff.mpr (List.mem_map.mpr ⟨c, hc, rfl⟩)

/-- What is delivered for a copied chunk was counted, and was a read of bytes. -/
theorem Inv.processed_of_copied (hi : Inv cfg s) {c : Completion} (hc : c ∈ s.delivered)
    (hk : c.chunkId ∈ s.copied) : c ∈ s.processed ∧ 0 < (cfg.params c.chunkId).rankSize := by
  have hcounts := hi.counts.copied _ hk
  have hle := hi.reads.submitted_le c.chunkId
  have hpos : 0 < s.submitted c.chunkId := by
    have := count_chunkId_pos hc
    simp only [State.delivered, List.map_append, List.count_append] at this
    unfold State.submitted State.inFlight State.counts
    omega
  unfold State.submitted at hle hpos
  constructor
  · have hflight : s.inFlight c.chunkId = 0 := by omega
    unfold State.inFlight at hflight
    rcases List.mem_append.mp hc with hc | hc
    · rcases List.mem_append.mp hc with hc | hc
      · exact hc
      · have := count_chunkId_pos hc
        omega
    · have := count_chunkId_pos hc
      omega
  · by_contra hzero
    have := submitCnt_eq_zero.mpr (Nat.eq_zero_of_not_pos hzero)
    omega

/-- A chunk is copied with the bytes of its slice just if `res` tells. -/
theorem Inv.enough_iff (hi : Inv cfg s) :
    (∀ k ∈ s.copied, 0 < (cfg.params k).rankSize →
      ∃ c ∈ s.processed, c.chunkId = k ∧ ((cfg.params k).rankSize : ℤ) ≤ c.res) ↔
    ∀ c ∈ s.delivered, c.chunkId ∈ s.copied → cfg.Tells c := by
  constructor
  · intro henough c hc hk
    obtain ⟨hproc, hpos⟩ := hi.processed_of_copied hc hk
    obtain ⟨d, hd, hdk, hle⟩ := henough _ hk hpos
    have hnodup : (s.processed.map (·.chunkId)).Nodup := by
      have := hi.nodup
      rw [List.append_assoc, List.map_append] at this
      exact this.of_append_left
    obtain rfl := List.inj_on_of_nodup_map hnodup hd hproc hdk
    exact Or.inr (Or.inr ((Int.natCast_nonneg _).trans hle))
  · intro htells k hk hpos
    obtain ⟨c, hc, hck, hle⟩ := hi.protocol.copies k hk hpos
    have hmem : c ∈ s.delivered := List.mem_append_left _ (List.mem_append_left _ hc)
    exact ⟨c, hc, hck, hle (htells c hmem (hck ▸ hk))⟩

end Safe

/-- **Every completion is counted once, by its own chunk.** In every run of the
loader thread, the last-page thread, the cuda thread and the wait thread, and
whatever the kernel completes when and with what result. The copies are of
whole slices just if every completion that the run delivers for a copied chunk
tells a failed read. -/
theorem completions_counted (cfg : Config) (l : List Action) (s : State)
    (h : (io cfg).exec l (io cfg).init = some s) :
    Protocol cfg s ∧
      (Counted cfg s ↔ ∀ c, .complete c ∈ l → c.chunkId ∈ s.copied → cfg.Tells c) := by
  have hi : Inv cfg s := reachable_inv (Machine.Reachable.exec l .init h)
  have hiff : Counted cfg s ↔ ∀ c ∈ s.delivered, c.chunkId ∈ s.copied → cfg.Tells c := by
    rw [← hi.enough_iff]
    exact ⟨fun hc => hc.enough, fun he => ⟨hi.protocol, he⟩⟩
  refine ⟨hi.protocol, hiff.trans ?_⟩
  simp only [mem_delivered h]

/-- The second of three ranks, with two windows. The read of the second chunk
ends inside a page, and that of the third is empty. -/
def secondRank : Config where
  geometry := initBuffer 4096 3 8192 2 0 page_pos threeRanks.worldSize_pos twoPages_pos Nat.two_pos
  rank := 1
  backend := .aio
  chunks := [⟨24576, 0, 4096, 16⟩, tailChunk, ⟨100, 1, 0, 36880⟩]
  resSigned := false

/-- The second read completes first, and the first `cuda_func` counts it. -/
def secondReadFirst : List Action :=
  List.replicate 15 (.post 1) ++ List.replicate 3 (.lastPage 1) ++ [.complete ⟨1, 4196⟩, .complete ⟨0, 8192⟩] ++
  List.replicate 11 (.cuda 1) ++ [.wait] ++ List.replicate 7 (.post 1) ++ List.replicate 7 (.cuda 1)

theorem completions_counted_secondRank :
    ∃ s, (io secondRank).exec secondReadFirst (io secondRank).init = some s ∧
      s.processed = [⟨1, 4196⟩, ⟨0, 8192⟩] ∧ s.copied = [0, 1, 2] ∧ Counted secondRank s := by
  obtain ⟨s, hs, hp⟩ := (io secondRank).exists_exec secondReadFirst
    (fun s => decide (s.processed = [⟨1, 4196⟩, ⟨0, 8192⟩] ∧ s.copied = [0, 1, 2])) (by decide)
  obtain ⟨h1, h2⟩ := of_decide_eq_true hp
  refine ⟨s, hs, h1, h2, (completions_counted secondRank secondReadFirst s hs).2.mpr fun c hc _ => ?_⟩
  exact (by decide : ∀ a ∈ secondReadFirst, ∀ c ∈ a.delivers, secondRank.Tells c) _ hc c
    (List.mem_singleton_self c)

/-- The disk gives an error for the read of the first chunk. -/
def firstReadFails : List Action :=
  List.replicate 8 (.post 1) ++ [.complete ⟨0, -5⟩] ++ List.replicate 7 (.cuda 1)

/-- The first chunk is copied though its read has failed. -/
theorem failed_read_copied :
    ¬ ∀ (cfg : Config) (s : State), (io cfg).Reachable s → Counted cfg s := by
  intro hall
  obtain ⟨s, hs, hp⟩ := (io secondRank).exists_reachable firstReadFails
    (fun s => decide (s.processed = [⟨0, -5⟩] ∧ s.copied = [0])) (by decide)
  obtain ⟨h1, h2⟩ := of_decide_eq_true hp
  obtain ⟨c, hc, -, hle⟩ := (hall secondRank s hs).enough 0 (by simp [h2]) (by decide)
  rw [h1, List.mem_singleton] at hc
  subst hc
  revert hle
  decide

end Io
end Siphon
