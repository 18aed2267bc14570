/-
# What the kernel, the device and the workers have of the buffers

A chunk whose read is posted is with a task, with the kernel, or read
(`Reads.census`); a chunk whose work is issued is with the device or copied
(`Copies.census`). A `cuda_func` ends when its own chunk is read, although it
counts completions of every chunk, and a `wait_func` when its own chunk is
copied, although the event of its slot is recorded again later: a window of
`io_depth` chunks keeps the slots apart.

Key definitions: `Reads`, `Copies`.
-/
import Siphon.Close.Model

namespace Siphon
namespace Close

open Frontend

/-! ### Backends -/

section Backends

variable {cfg : Config} {k : ℕ}

/-- A part of the chunk is read from its file; of a registered mapping, the device reads it. -/
def Config.hasRead (cfg : Config) (chunkId : ℕ) : Bool := cfg.registered = false ∧ 0 < cfg.rankSize chunkId

theorem hasRead_iff : cfg.hasRead k = true ↔ cfg.registered = false ∧ 0 < cfg.rankSize k := by
  simp [Config.hasRead]

theorem registered_of_kernelReads (h : cfg.kernelReads = true) : cfg.registered = false := by
  rcases hb : cfg.backend <;> simp [Config.kernelReads, Config.isAio, Config.isUring, Config.registered, hb] at h ⊢

theorem hasRead_of_readTask (h : cfg.readTask k = true) : cfg.hasRead k = true := by
  rcases hb : cfg.backend <;>
    simp [Config.readTask, Config.needWorkerThreads, Config.isAio, Config.hasRead, Config.registered, hb] at h ⊢ <;>
    tauto

/-- Without the kernel's reads, every read is a task. -/
theorem readTask_eq (h : cfg.kernelReads = false) : cfg.readTask k = cfg.hasRead k := by
  rcases hb : cfg.backend <;>
    simp [Config.kernelReads, Config.readTask, Config.needWorkerThreads, Config.isAio, Config.isUring, Config.hasRead,
      Config.registered, hb, and_comm] at h ⊢

theorem submitCnt_eq (h : cfg.kernelReads = true) : cfg.submitCnt k = if cfg.hasRead k then 1 else 0 := by
  simp [Config.submitCnt, Config.hasRead, registered_of_kernelReads h]

end Backends

/-! ### Reads -/

/-- Where the reads of the first `staged` chunks are; the first `ended` of them have finished. -/
structure Reads (cfg : Config) (staged ended : ℕ) (waits unfinished : ℕ → ℕ) (kernel completions read : List ℕ) :
    Prop where
  census : ∀ k, waits k + kernel.count k + read.count k = if k < staged ∧ cfg.hasRead k = true then 1 else 0
  counted : ∀ k, unfinished k = if cfg.kernelReads then waits k + kernel.count k + completions.count k else 0
  completed : ∀ k, completions.count k ≤ read.count k
  no_kernel : cfg.kernelReads = false → kernel = []
  over_read : ∀ k < ended, waits k + kernel.count k = 0

section Reads

variable {cfg : Config} {staged ended k : ℕ} {waits waits' unfinished : ℕ → ℕ} {kernel completions read : List ℕ}

theorem reads_init : Reads cfg 0 0 (fun _ => 0) (fun _ => 0) [] [] [] :=
  { census := fun k => by simp
    counted := fun k => by simp
    completed := fun k => by simp
    no_kernel := fun _ => rfl
    over_read := fun k hk => absurd hk (Nat.not_lt_zero k) }

theorem Reads.congr (h : Reads cfg staged ended waits unfinished kernel completions read)
    (hw : ∀ k, waits' k = waits k) : Reads cfg staged ended waits' unfinished kernel completions read := by
  rw [funext hw]
  exact h

/-- Of a chunk that is not posted, there is nothing. -/
theorem Reads.fresh (h : Reads cfg staged ended waits unfinished kernel completions read) :
    waits staged = 0 ∧ kernel.count staged = 0 ∧ read.count staged = 0 ∧ completions.count staged = 0 := by
  have hc := h.census staged
  have hle := h.completed staged
  rw [if_neg (by omega)] at hc
  omega

/-- `unfinished_cnt` of the next chunk is set. -/
theorem Reads.update (h : Reads cfg staged ended waits unfinished kernel completions read)
    (hkernel : cfg.kernelReads = true) (k : ℕ) :
    Function.update unfinished staged (cfg.submitCnt staged) k =
      waits k + kernel.count k + completions.count k + if k = staged ∧ cfg.hasRead k = true then 1 else 0 := by
  rw [Function.update_apply]
  split_ifs with hk hnew hnew
  · obtain ⟨hw, hq, -, hc⟩ := h.fresh
    rw [submitCnt_eq hkernel, if_pos (hk ▸ hnew.2), hk, hw, hq, hc]
  · obtain ⟨hw, hq, -, hc⟩ := h.fresh
    rw [submitCnt_eq hkernel, if_neg (fun hr => hnew ⟨hk, hk ▸ hr⟩), hk, hw, hq, hc]
  · exact absurd hnew.1 hk
  · rw [h.counted k, if_pos hkernel, Nat.add_zero]

/-- The next chunk has no read. -/
theorem Reads.none (h : Reads cfg staged ended waits unfinished kernel completions read)
    (hread : cfg.hasRead staged = false) :
    Reads cfg (staged + 1) ended waits
      (if cfg.kernelReads then Function.update unfinished staged (cfg.submitCnt staged) else unfinished)
      kernel completions read := by
  refine { h with census := fun k => ?_, counted := fun k => ?_ }
  · rw [h.census k]
    by_cases hk : k = staged
    · subst hk
      simp [hread]
    · simp [show k < staged + 1 ↔ k < staged by omega]
  · by_cases hkernel : cfg.kernelReads = true
    · rw [if_pos hkernel, if_pos hkernel, h.update hkernel k, if_neg, Nat.add_zero]
      rintro ⟨rfl, hr⟩
      rw [hread] at hr
      cases hr
    · rw [if_neg hkernel, h.counted k]

/-- The read of the next chunk goes to a task or to the kernel. -/
theorem Reads.post {kernel' : List ℕ} (h : Reads cfg staged ended waits unfinished kernel completions read)
    (ho : ended ≤ staged) (hread : cfg.hasRead staged = true) (hno : cfg.kernelReads = false → kernel' = [])
    (hnew : ∀ k, waits' k + kernel'.count k = waits k + kernel.count k + if staged = k then 1 else 0) :
    Reads cfg (staged + 1) ended waits'
      (if cfg.kernelReads then Function.update unfinished staged (cfg.submitCnt staged) else unfinished)
      kernel' completions read := by
  refine
    { census := fun k => ?_
      counted := fun k => ?_
      completed := h.completed
      no_kernel := hno
      over_read := fun k hk => ?_ }
  · have hc := h.census k
    rw [hnew k]
    rcases Nat.lt_trichotomy k staged with hk | rfl | hk
    · rw [if_neg (by omega)]
      simpa [show k < staged + 1 by omega, hk] using hc
    · simp only [Nat.lt_irrefl, false_and, if_false] at hc
      rw [if_pos rfl, if_pos ⟨Nat.lt_succ_self k, hread⟩]
      omega
    · rw [if_neg (by omega)] at hc ⊢
      rw [if_neg (by omega)]
      omega
  · by_cases hkernel : cfg.kernelReads = true
    · rw [if_pos hkernel, if_pos hkernel, h.update hkernel k, hnew k]
      by_cases hk : staged = k
      · subst hk
        rw [if_pos rfl, if_pos ⟨rfl, hread⟩]
        omega
      · rw [if_neg hk, if_neg (fun he => hk he.1.symm)]
        omega
    · rw [if_neg hkernel, if_neg hkernel, h.counted k, if_neg hkernel]
  · have := h.over_read k hk
    rw [hnew k, if_neg (by omega)]
    exact this

/-- A task hands its read to the kernel, or makes it. -/
theorem Reads.run (h : Reads cfg staged ended waits unfinished kernel completions read) {t : ℕ}
    (hw : ∀ k, waits k = waits' k + if t = k then 1 else 0) :
    if cfg.kernelReads then Reads cfg staged ended waits' unfinished (kernel ++ [t]) completions read
    else Reads cfg staged ended waits' unfinished kernel completions (read ++ [t]) := by
  have hcount : ∀ (l : List ℕ) k, (l ++ [t]).count k = l.count k + if t = k then 1 else 0 := fun l k => by
    rw [List.count_append, List.count_singleton]
    simp
  split_ifs with hkernel
  · refine
      { census := fun k => ?_
        counted := fun k => ?_
        completed := h.completed
        no_kernel := fun hno => by simp [hno] at hkernel
        over_read := fun k hk => ?_ }
    · have hc := h.census k
      rw [hw k] at hc
      rw [hcount, ← hc]
      omega
    · rw [h.counted k, if_pos hkernel, if_pos hkernel, hcount, hw k]
      omega
    · have hover := h.over_read k hk
      rw [hw k] at hover
      rw [hcount]
      omega
  · refine
      { census := fun k => ?_
        counted := fun k => ?_
        completed := fun k => ?_
        no_kernel := h.no_kernel
        over_read := fun k hk => ?_ }
    · have hc := h.census k
      rw [hw k] at hc
      rw [hcount, ← hc]
      omega
    · rw [h.counted k, if_neg hkernel, if_neg hkernel]
    · have := h.completed k
      rw [hcount]
      omega
    · have hover := h.over_read k hk
      rw [hw k] at hover
      omega

/-- A completion is counted. -/
theorem Reads.take {c : ℕ} {rest : List ℕ} (h : Reads cfg staged ended waits unfinished kernel (c :: rest) read)
    (hkernel : cfg.kernelReads = true) :
    Reads cfg staged ended waits (Function.update unfinished c (unfinished c - 1)) kernel rest read := by
  refine { h with counted := fun k => ?_, completed := fun k => ?_ }
  · have hc := h.counted k
    rw [if_pos hkernel, List.count_cons] at hc
    rw [if_pos hkernel, Function.update_apply]
    split_ifs with hk
    · subst hk
      simp only [beq_self_eq_true, if_true] at hc
      omega
    · simpa [Ne.symm hk] using hc
  · have := h.completed k
    rw [List.count_cons] at this
    omega

/-- The kernel completes a read. -/
theorem Reads.complete {c : ℕ} (h : Reads cfg staged ended waits unfinished kernel completions read)
    (hc : c ∈ kernel) :
    Reads cfg staged ended waits unfinished (kernel.erase c) (completions ++ [c]) (read ++ [c]) := by
  have hcount : ∀ (l : List ℕ) k, (l ++ [c]).count k = l.count k + if c = k then 1 else 0 := fun l k => by
    rw [List.count_append, List.count_singleton]
    simp
  have herase : ∀ k, (kernel.erase c).count k + (if c = k then 1 else 0) = kernel.count k := by
    intro k
    split_ifs with hk
    · subst hk
      have hpos := List.count_pos_iff.mpr hc
      rw [List.count_erase_self]
      omega
    · rw [List.count_erase_of_ne (Ne.symm hk), Nat.add_zero]
  have hkernel : cfg.kernelReads = true := by
    by_contra hno
    rw [h.no_kernel (by simpa using hno)] at hc
    cases hc
  refine
    { census := fun k => ?_
      counted := fun k => ?_
      completed := fun k => ?_
      no_kernel := fun hno => by simp [hno] at hkernel
      over_read := fun k hk => ?_ }
  · rw [← h.census k, ← herase k, hcount]
    omega
  · rw [h.counted k, if_pos hkernel, if_pos hkernel, ← herase k, hcount]
    omega
  · have := h.completed k
    rw [hcount, hcount]
    omega
  · have hover := h.over_read k hk
    rw [← herase k] at hover
    omega

/-- A `cuda_func` ends behind its loop. -/
theorem Reads.done (h : Reads cfg staged ended waits unfinished kernel completions read)
    (hzero : unfinished ended = 0) (hwaits : cfg.kernelReads = false → waits ended = 0) :
    Reads cfg staged (ended + 1) waits unfinished kernel completions read := by
  refine { h with over_read := fun k hk => ?_ }
  rcases Nat.lt_or_ge k ended with hlt | hge
  · exact h.over_read k hlt
  · obtain rfl : k = ended := by omega
    by_cases hkernel : cfg.kernelReads = true
    · have hc := h.counted k
      rw [if_pos hkernel] at hc
      omega
    · have hkernel : cfg.kernelReads = false := by simpa using hkernel
      rw [hwaits hkernel, h.no_kernel hkernel]
      rfl

theorem Reads.mem_read {k : ℕ} (h : Reads cfg staged ended waits unfinished kernel completions read) (hk : k < staged)
    (ho : k < ended) (hread : cfg.hasRead k = true) : k ∈ read := by
  have hcensus := h.census k
  have hover := h.over_read k ho
  rw [if_pos ⟨hk, hread⟩] at hcensus
  exact List.count_pos_iff.mp (by omega)

/-- When all `cuda_func`s have ended, the kernel has no read. -/
theorem Reads.kernel_eq_nil (h : Reads cfg staged ended waits unfinished kernel completions read)
    (hall : ∀ k < staged, cfg.hasRead k = true → k < ended) : kernel = [] := by
  rw [List.eq_nil_iff_forall_not_mem]
  intro k hk
  have hcensus := h.census k
  have hpos := List.count_pos_iff.mpr hk
  split_ifs at hcensus with hhas
  · have hover := h.over_read k (hall k hhas.1 hhas.2)
    omega
  · omega

end Reads

/-! ### Copies -/

/-- Where the work of the first `issued` chunks is; the first `ended` of them are waited for. -/
structure Copies (cfg : Config) (issued ended : ℕ) (device copied : List ℕ) (events : ℕ → Option ℕ) : Prop where
  census : ∀ k, device.count k + copied.count k = if k < issued ∧ cfg.deviceWork = true then 1 else 0
  over_copied : ∀ k < ended, k ∉ device
  recorded : cfg.deviceWork = true → ∀ k < issued, ended ≤ k → events (cfg.windowIdx k) = some k

section Copies

variable {cfg : Config} {issued ended : ℕ} {device copied : List ℕ} {events : ℕ → Option ℕ}

theorem copies_init : Copies cfg 0 0 [] [] fun _ => none :=
  { census := fun k => by simp
    over_copied := fun k hk => absurd hk (Nat.not_lt_zero k)
    recorded := fun _ k hk => absurd hk (Nat.not_lt_zero k) }

/-- Two chunks of the window have two slots. -/
theorem windowIdx_ne {j k : ℕ} (h : j < k) (hk : k < j + cfg.geometry.ioDepth) :
    cfg.windowIdx j ≠ cfg.windowIdx k := by
  intro he
  have := Rounding.add_le_of_mod_eq h he
  omega

/-- The work of the next chunk is issued. -/
theorem Copies.issue {s : State} (h : Copies cfg issued ended s.device s.copied s.events) (ho : ended ≤ issued)
    (hwindow : issued < ended + cfg.geometry.ioDepth) : ∃ device events,
    issue cfg issued s = { s with device, events } ∧ Copies cfg (issued + 1) ended device s.copied events := by
  unfold Close.issue
  by_cases hwork : cfg.deviceWork = true
  · rw [if_pos hwork]
    refine ⟨_, _, rfl, ?_⟩
    refine
      { census := fun k => ?_
        over_copied := fun k hk hmem => ?_
        recorded := fun _ k hk hle => ?_ }
    · have hc := h.census k
      simp only [hwork, and_true] at hc
      rw [List.count_append, List.count_singleton]
      by_cases hk : issued = k
      · subst hk
        simp only [Nat.lt_irrefl, if_false] at hc
        simp [hwork]
        omega
      · simp only [beq_iff_eq, hk, if_false, hwork, and_true, show k < issued + 1 ↔ k < issued by omega]
        omega
    · rcases List.mem_append.mp hmem with hmem | hmem
      · exact h.over_copied k hk hmem
      · have := List.mem_singleton.mp hmem
        omega
    · rcases Nat.lt_or_ge k issued with hlt | hge
      · rw [Function.update_of_ne (windowIdx_ne hlt (by omega))]
        exact h.recorded hwork k hlt hle
      · obtain rfl : k = issued := by omega
        exact Function.update_self _ _ _
  · rw [if_neg hwork]
    refine ⟨s.device, s.events, rfl, { h with census := fun k => ?_, recorded := fun hw => absurd hw hwork }⟩
    simpa [hwork] using h.census k

/-- The device finishes the work of a chunk. -/
theorem Copies.complete {c : ℕ} (h : Copies cfg issued ended device copied events) (hc : c ∈ device) :
    Copies cfg issued ended (device.erase c) (copied ++ [c]) events := by
  refine { h with census := fun k => ?_, over_copied := fun k hk hmem => ?_ }
  · rw [← h.census k, List.count_append, List.count_singleton]
    by_cases hk : c = k
    · subst hk
      have hpos := List.count_pos_iff.mpr hc
      rw [List.count_erase_self, beq_self_eq_true, if_pos rfl]
      omega
    · rw [List.count_erase_of_ne (Ne.symm hk), if_neg (by simpa using hk), Nat.add_zero]
  · exact h.over_copied k hk (List.mem_of_mem_erase hmem)

/-- A `wait_func` ends behind its event. -/
theorem Copies.done {s : State} (h : Copies cfg issued ended s.device copied s.events) (ho : ended < issued)
    (hsync : synchronized cfg s ended = true) : Copies cfg issued (ended + 1) s.device copied s.events := by
  refine { h with over_copied := fun k hk hmem => ?_, recorded := fun hw k hk hle => h.recorded hw k hk (by omega) }
  rcases Nat.lt_or_ge k ended with hlt | hge
  · exact h.over_copied k hlt hmem
  · obtain rfl : k = ended := by omega
    have hc := h.census k
    have hpos := List.count_pos_iff.mpr hmem
    split_ifs at hc with hwork
    · rw [synchronized, h.recorded hwork.2 k ho le_rfl] at hsync
      simp [hmem] at hsync
    · omega

/-- When all `wait_func`s have ended, the device has no work. -/
theorem Copies.device_eq_nil (h : Copies cfg issued issued device copied events) : device = [] := by
  rw [List.eq_nil_iff_forall_not_mem]
  intro k hk
  have hcensus := h.census k
  have hpos := List.count_pos_iff.mpr hk
  by_cases hlt : k < issued
  · exact h.over_copied k hlt hk
  · rw [if_neg (fun hc => hlt hc.1)] at hcensus
    omega

theorem Copies.mem_copied {k : ℕ} (h : Copies cfg issued issued device copied events) (hk : k < issued)
    (hwork : cfg.deviceWork = true) : k ∈ copied := by
  have hcensus := h.census k
  rw [if_pos ⟨hk, hwork⟩, h.device_eq_nil, List.count_nil] at hcensus
  exact List.count_pos_iff.mp (by omega)

end Copies

end Close
end Siphon
