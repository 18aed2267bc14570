/-
# Device memory and launches

A buffer is a list of cells, each with a value or never written. A launch is
a list of threads: each reads and computes, and then all that the threads
store takes effect. An access outside a buffer, or a load of a cell that was
never written, has no result. The rule of a launch (`launch_spec`): when every
store is in range and stores the value that belongs to its cell, every thread's
stores are there afterwards; when every cell is stored to, the buffer is that
list of values (`launch_contents`). Threads that each keep to a part of the
buffer of their own may load from the buffer they store to
(`sweep_eq_launchFrom`).
-/
import Mathlib.Algebra.BigOperators.Group.Finset.Basic
import Mathlib.Order.Interval.Finset.Nat
import Siphon.Lib.Fallible

namespace Launch

open Finset Fallible

variable {α β ι τ : Type}

/-- A buffer: each cell has a value or was never written. -/
abbrev Cells (α : Type) := List (Option α)

def alloc (n : ℕ) : Cells α := List.replicate n none

def load (m : Cells α) (i : ℕ) : Option α := m[i]?.join

def store (m : Cells α) (i : ℕ) (v : α) : Option (Cells α) := if i < m.length then some (m.set i (some v)) else none

def stores (m : Cells α) : List (ℕ × α) → Option (Cells α)
  | [] => some m
  | w :: l => (store m w.1 w.2).bind fun m => stores m l

/-- Every thread reads and computes, then what they store takes effect. -/
def launch (threads : List τ) (body : τ → Option (List (ℕ × α))) (m : Cells α) : Option (Cells α) :=
  (threads.mapM body).bind fun ws => stores m ws.flatten

/-- Threads that load from `src` and store to `dst`; the other result of each is kept. -/
def launchFrom {σ : Type} (body : σ → τ → Option (List (ℕ × α) × β)) (threads : List τ) (src : σ) (dst : Cells α) :
    Option (Cells α × List β) :=
  (threads.mapM (body src)).bind fun rs => (stores dst (rs.map Prod.fst).flatten).map fun m => (m, rs.map Prod.snd)

/-- Threads that load from the buffer they store to, one after another. -/
def sweep (body : Cells α → τ → Option (List (ℕ × α) × β)) : List τ → Cells α → Option (Cells α × List β)
  | [], m => some (m, [])
  | t :: ts, m => do
    let (ws, b) ← body m t
    let m ← stores m ws
    let (m, bs) ← sweep body ts m
    some (m, b :: bs)

/-- The values of a buffer all of which was written. -/
def contents (m : Cells α) : Option (List α) := m.mapM id

/-- `for i in l: acc += f(i)`, where `f` loads. -/
def total [Zero α] [Add α] (l : List ι) (f : ι → Option α) : Option α :=
  l.foldlM (fun acc i => (f i).map (acc + ·)) 0

/-! ### Loads and stores -/

@[simp]
theorem length_alloc (n : ℕ) : (alloc n : Cells α).length = n := List.length_replicate

theorem load_set (m : Cells α) (i j : ℕ) (v : α) (h : i < m.length) :
    load (m.set i (some v)) j = if i = j then some v else load m j := by
  unfold load
  rw [List.getElem?_set]
  by_cases hij : i = j
  · rw [if_pos hij, if_pos hij, if_pos h]; rfl
  · rw [if_neg hij, if_neg hij]

/-- Stores in range that agree with `v`. -/
theorem stores_spec {v : ℕ → α} : ∀ (l : List (ℕ × α)) (m : Cells α),
    (∀ w ∈ l, w.1 < m.length ∧ w.2 = v w.1) →
    ∃ m', stores m l = some m' ∧ m'.length = m.length ∧
      ∀ i, load m' i = if i ∈ l.map Prod.fst then some (v i) else load m i
  | [], m, _ => ⟨m, rfl, rfl, fun i => by simp⟩
  | w :: l, m, h => by
    obtain ⟨hw, hl⟩ := List.forall_mem_cons.mp h
    have hlen : (m.set w.1 (some w.2)).length = m.length := List.length_set
    obtain ⟨m', hm', hlen', hload⟩ := stores_spec l (m.set w.1 (some w.2)) (by rw [hlen]; exact hl)
    refine ⟨m', ?_, hlen'.trans hlen, fun i => ?_⟩
    · rw [stores, store, if_pos hw.1, Option.bind_some, hm']
    · rw [hload, load_set m w.1 i w.2 hw.1, List.map_cons, hw.2]
      by_cases hi : i ∈ l.map Prod.fst
      · rw [if_pos hi, if_pos (List.mem_cons_of_mem _ hi)]
      · rw [if_neg hi]
        by_cases hwi : w.1 = i
        · rw [if_pos hwi, if_pos (by rw [hwi]; exact List.mem_cons_self), hwi]
        · rw [if_neg hwi, if_neg (by simp only [List.mem_cons, not_or]; exact ⟨Ne.symm hwi, hi⟩)]

theorem stores_append : ∀ (l l' : List (ℕ × α)) (m : Cells α),
    stores m (l ++ l') = (stores m l).bind fun m => stores m l'
  | [], _, _ => rfl
  | w :: l, l', m => by
    rw [List.cons_append, stores, stores, Option.bind_assoc]
    congr 1
    funext m
    exact stores_append l l' m

/-- Stores in range leave the other cells as they were. -/
theorem stores_frame : ∀ (l : List (ℕ × α)) (m : Cells α), (∀ w ∈ l, w.1 < m.length) →
    ∃ m', stores m l = some m' ∧ m'.length = m.length ∧ ∀ i, (∀ w ∈ l, w.1 ≠ i) → load m' i = load m i
  | [], m, _ => ⟨m, rfl, rfl, fun _ _ => rfl⟩
  | w :: l, m, h => by
    obtain ⟨hw, hl⟩ := List.forall_mem_cons.mp h
    have hlen : (m.set w.1 (some w.2)).length = m.length := List.length_set
    obtain ⟨m', hm', hlen', hload⟩ := stores_frame l (m.set w.1 (some w.2)) (by rw [hlen]; exact hl)
    refine ⟨m', ?_, hlen'.trans hlen, fun i hi => ?_⟩
    · rw [stores, store, if_pos hw, Option.bind_some, hm']
    · obtain ⟨hwi, hli⟩ := List.forall_mem_cons.mp hi
      rw [hload i hli, load_set m w.1 i w.2 hw, if_neg hwi]

/-- A store out of range has no result. -/
theorem stores_eq_none {w : ℕ × α} : ∀ (l : List (ℕ × α)) (m : Cells α), w ∈ l → m.length ≤ w.1 → stores m l = none
  | w' :: l, m, hw, hr => by
    rcases List.mem_cons.mp hw with rfl | hw
    · rw [stores, store, if_neg (by omega)]
      rfl
    · rw [stores]
      by_cases h : w'.1 < m.length
      · rw [store, if_pos h, Option.bind_some]
        exact stores_eq_none l _ hw (by rw [List.length_set]; exact hr)
      · rw [store, if_neg h]
        rfl

/-! ### Launches -/

/-- A thread without a result leaves the launch without one. -/
theorem launch_eq_none {threads : List τ} {body : τ → Option (List (ℕ × α))} {m : Cells α} {t : τ} (ht : t ∈ threads)
    (hb : body t = none) : launch threads body m = none := by
  unfold launch
  rw [mapM_eq_none threads ht hb]
  rfl

theorem mem_flatten_map {threads : List τ} {ws : τ → List (ℕ × α)} {w : ℕ × α} :
    w ∈ (threads.map ws).flatten ↔ ∃ t ∈ threads, w ∈ ws t := by
  rw [← List.flatMap_def, List.mem_flatMap]

/-- The rule of a launch. -/
theorem launch_spec {threads : List τ} {body : τ → Option (List (ℕ × α))} {m : Cells α} {ws : τ → List (ℕ × α)}
    {v : ℕ → α} (hb : ∀ t ∈ threads, body t = some (ws t))
    (hw : ∀ t ∈ threads, ∀ w ∈ ws t, w.1 < m.length ∧ w.2 = v w.1) :
    ∃ m', launch threads body m = some m' ∧ m'.length = m.length ∧
      ∀ t ∈ threads, ∀ w ∈ ws t, load m' w.1 = some w.2 := by
  obtain ⟨m', hm', hlen, hload⟩ := stores_spec (v := v) (threads.map ws).flatten m fun w hmem => by
    obtain ⟨t, ht, hwt⟩ := mem_flatten_map.mp hmem
    exact hw t ht w hwt
  refine ⟨m', ?_, hlen, fun t ht w hwt => ?_⟩
  · unfold launch
    rw [mapM_eq_map threads hb, Option.bind_some, hm']
  · rw [hload, if_pos (List.mem_map_of_mem (mem_flatten_map.mpr ⟨t, ht, hwt⟩)), (hw t ht w hwt).2]

/-- A launch that stores out of range has no result. -/
theorem launch_out_of_range {threads : List τ} {body : τ → Option (List (ℕ × α))} {m : Cells α}
    {ws : τ → List (ℕ × α)} (hb : ∀ t ∈ threads, body t = some (ws t)) {t : τ} (ht : t ∈ threads) {w : ℕ × α}
    (hw : w ∈ ws t) (hr : m.length ≤ w.1) : launch threads body m = none := by
  unfold launch
  rw [mapM_eq_map threads hb, Option.bind_some]
  exact stores_eq_none _ m (mem_flatten_map.mpr ⟨t, ht, hw⟩) hr

/-- Every cell of the buffer that the threads store to, and every cell of `reads`, is one of its `cells`, and what is
read was stored by the launch. -/
structure Inside (threads : List τ) (body : τ → Option (List (ℕ × α))) (reads : List ℕ) (cells : ℕ) : Prop where
  writes : ∀ t ∈ threads, ∃ ws, body t = some ws ∧ ∀ w ∈ ws, w.1 < cells
  reads : ∃ m, launch threads body (alloc cells) = some m ∧ ∀ a ∈ reads, a < cells ∧ ∃ v, load m a = some v

theorem contents_eq {m : Cells α} {v : ℕ → α} (h : ∀ i < m.length, load m i = some (v i)) :
    m = ((List.range m.length).map v).map some := by
  apply List.ext_getElem
  · simp
  · intro i h1 h2
    have hi := h i h1
    unfold load at hi
    rw [List.getElem?_eq_getElem h1] at hi
    simpa using hi

/-- Stores of many threads that reach every cell. -/
theorem stores_contents {threads : List τ} {m : Cells α} {ws : τ → List (ℕ × α)} {v : ℕ → α}
    (hw : ∀ t ∈ threads, ∀ w ∈ ws t, w.1 < m.length ∧ w.2 = v w.1)
    (hcover : ∀ i < m.length, ∃ t ∈ threads, ∃ w ∈ ws t, w.1 = i) :
    stores m (threads.map ws).flatten = some (((List.range m.length).map v).map some) := by
  obtain ⟨m', hm', hlen, hload⟩ := stores_spec (v := v) (threads.map ws).flatten m fun w hmem => by
    obtain ⟨t, ht, hwt⟩ := mem_flatten_map.mp hmem
    exact hw t ht w hwt
  have hm : m' = ((List.range m'.length).map v).map some := by
    apply contents_eq
    intro i hi
    obtain ⟨t, ht, w, hwt, rfl⟩ := hcover i (hlen ▸ hi)
    rw [hload, if_pos (List.mem_map_of_mem (mem_flatten_map.mpr ⟨t, ht, hwt⟩))]
  rw [hm', hm, hlen]

/-- A launch that stores to every cell. -/
theorem launch_contents {threads : List τ} {body : τ → Option (List (ℕ × α))} {m : Cells α}
    {ws : τ → List (ℕ × α)} {v : ℕ → α} (hb : ∀ t ∈ threads, body t = some (ws t))
    (hw : ∀ t ∈ threads, ∀ w ∈ ws t, w.1 < m.length ∧ w.2 = v w.1)
    (hcover : ∀ i < m.length, ∃ t ∈ threads, ∃ w ∈ ws t, w.1 = i) :
    launch threads body m = some (((List.range m.length).map v).map some) := by
  unfold launch
  rw [mapM_eq_map threads hb, Option.bind_some, stores_contents hw hcover]

/-- A launch whose threads store to all cells, each once, part by part. -/
theorem launch_parts {threads : List τ} {body : τ → Option (List (ℕ × α))} {m : Cells α} {part : τ → List ℕ}
    {v : ℕ → α} (hb : ∀ t ∈ threads, body t = some ((part t).map fun i => (i, v i)))
    (hparts : threads.flatMap part = List.range m.length) :
    launch threads body m = some (((List.range m.length).map v).map some) := by
  apply launch_contents hb
  · intro t ht w hw
    obtain ⟨i, hi, rfl⟩ := List.mem_map.mp hw
    have hmem : i ∈ threads.flatMap part := List.mem_flatMap.mpr ⟨t, ht, hi⟩
    rw [hparts] at hmem
    exact ⟨List.mem_range.mp hmem, rfl⟩
  · intro i hi
    have hmem : i ∈ threads.flatMap part := hparts.symm ▸ List.mem_range.mpr hi
    obtain ⟨t, ht, hit⟩ := List.mem_flatMap.mp hmem
    exact ⟨t, ht, (i, v i), List.mem_map_of_mem hit, rfl⟩

/-- A launch whose thread `n` stores cell `n`. -/
theorem launch_each {N T : ℕ} {body : ℕ → Option (List (ℕ × α))} {v : ℕ → α} (hT : N ≤ T)
    (hb : ∀ n < T, body n = some (if N ≤ n then [] else [(n, v n)])) :
    launch (List.range T) body (alloc N) = some (((List.range N).map v).map some) := by
  rw [launch_contents (v := v) fun n hn => hb n (List.mem_range.mp hn), length_alloc]
  · intro n _ w hw
    by_cases hn : N ≤ n
    · rw [if_pos hn] at hw
      simp at hw
    · rw [if_neg hn, List.mem_singleton] at hw
      subst hw
      rw [length_alloc]
      exact ⟨by omega, rfl⟩
  · intro n hn
    rw [length_alloc] at hn
    refine ⟨n, List.mem_range.mpr (by omega), (n, v n), ?_, rfl⟩
    rw [if_neg (by omega)]
    exact List.mem_singleton_self _

theorem load_map_some (l : List α) (i : ℕ) : load (l.map some) i = l[i]? := by
  unfold load
  rw [List.getElem?_map]
  cases l[i]? <;> rfl

theorem contents_map_some (l : List α) : contents (l.map some) = some l := by
  unfold contents
  rw [List.mapM_map]
  simpa using mapM_eq_map (f := id) l fun _ _ => rfl

/-- Threads that each load and store in a part of the buffer of their own may work in place: the order does not
matter, and none sees what another stored. -/
theorem sweep_eq_launchFrom {body : Cells α → τ → Option (List (ℕ × α) × β)} {o : τ → ℕ → Prop} {m0 : Cells α}
    (hlocal : ∀ t m, m.length = m0.length → (∀ i, o t i → load m i = load m0 i) → body m t = body m0 t) :
    ∀ (threads : List τ) (m : Cells α), m.length = m0.length →
      (∀ t ∈ threads, ∀ ws b, body m0 t = some (ws, b) → ∀ w ∈ ws, o t w.1 ∧ w.1 < m0.length) →
      threads.Pairwise (fun t t' => ∀ i, o t i → ¬ o t' i) →
      (∀ t ∈ threads, ∀ i, o t i → load m i = load m0 i) →
      sweep body threads m = launchFrom body threads m0 m
  | [], _, _, _, _, _ => rfl
  | t :: ts, m, hlen, hown, hpair, hm => by
    obtain ⟨ht, hts⟩ := List.pairwise_cons.mp hpair
    obtain ⟨hown, howns⟩ := List.forall_mem_cons.mp hown
    rw [sweep, launchFrom, hlocal t m hlen (hm t List.mem_cons_self), List.mapM_cons]
    cases hb : body m0 t with
    | none => rfl
    | some r =>
      obtain ⟨ws, b⟩ := r
      obtain ⟨m', hm', hlen', hload⟩ := stores_frame ws m fun w hw => by
        rw [hlen]
        exact (hown ws b hb w hw).2
      have hframe : ∀ t' ∈ ts, ∀ i, o t' i → load m' i = load m0 i := by
        intro t' ht' i hi
        rw [hload i fun w hw he => ht t' ht' i (he ▸ (hown ws b hb w hw).1) hi]
        exact hm t' (List.mem_cons_of_mem t ht') i hi
      have ih := sweep_eq_launchFrom hlocal ts m' (hlen'.trans hlen) howns hts hframe
      simp only [Option.bind_eq_bind, Option.bind_some, hm', ih, launchFrom]
      cases ts.mapM (body m0) with
      | none => rfl
      | some rs =>
        have hstores : stores m (((ws, b) :: rs).map Prod.fst).flatten = stores m' (rs.map Prod.fst).flatten := by
          rw [List.map_cons, List.flatten_cons, stores_append, hm', Option.bind_some]
        simp only [Option.bind_some, pure, hstores]
        cases stores m' (rs.map Prod.fst).flatten <;> rfl

/-! ### Sums -/

section Sum

variable [AddCommMonoid α]

theorem foldlM_add {f : ι → Option α} {g : ι → α} : ∀ (l : List ι) (acc : α), (∀ i ∈ l, f i = some (g i)) →
    l.foldlM (fun acc i => (f i).map (acc + ·)) acc = some (acc + (l.map g).sum)
  | [], acc, _ => by simp
  | i :: l, acc, h => by
    obtain ⟨hi, hl⟩ := List.forall_mem_cons.mp h
    rw [List.foldlM_cons, hi, List.map_cons, List.sum_cons, ← add_assoc]
    exact foldlM_add l (acc + g i) hl

theorem total_eq {l : List ι} {f : ι → Option α} {g : ι → α} (h : ∀ i ∈ l, f i = some (g i)) :
    total l f = some (l.map g).sum := by
  unfold total
  rw [foldlM_add l 0 h, zero_add]

theorem total_range {n : ℕ} {f : ℕ → Option α} {g : ℕ → α} (h : ∀ i < n, f i = some (g i)) :
    total (List.range n) f = some (∑ i ∈ range n, g i) := by
  rw [total_eq fun i hi => h i (List.mem_range.mp hi)]
  rfl

/-- `for i in a .. b: acc += f(i)` -/
theorem total_range' {a b : ℕ} {f : ℕ → Option α} {g : ℕ → α} (h : ∀ i, a ≤ i → i < b → f i = some (g i)) :
    total (List.range' a (b - a)) f = some (∑ i ∈ Ico a b, g i) := by
  rw [total_eq (g := g)]
  · rfl
  · intro i hi
    obtain ⟨h1, h2⟩ := List.mem_range'_1.mp hi
    exact h i h1 (by omega)

theorem total_eq_none {l : List ι} {f : ι → Option α} {i : ι} (hi : i ∈ l) (hf : f i = none) : total l f = none := by
  unfold total
  generalize (0 : α) = acc
  induction l generalizing acc with
  | nil => simp at hi
  | cons j l ih =>
    rw [List.foldlM_cons]
    rcases List.mem_cons.mp hi with rfl | hi
    · rw [hf]; rfl
    · cases hj : f j with
      | none => rfl
      | some v => exact ih hi (acc + v)

end Sum

end Launch
