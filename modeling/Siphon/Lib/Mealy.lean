/-
# Machines that read and write

A step reads one input in a state and gives the next state and one output;
`run` does it for a list. Runs compose in two ways: along the list, where the
second part goes on from the state the first left (`run_append`), and in
cascade, where a second machine reads what the first writes: a stack of
machines reading one input after another is one machine (`stack`), and running
it is letting each machine pass over the whole list in turn (`run_stack`).
A machine that shows each input what the one before it left, and an inner
machine what it makes of the two, is the inner machine on the list of such
pairs (`run_feed`), also where the pairs start anew with each list while the
inner machine goes on (`restart_feed`).
-/
import Mathlib.Data.List.Basic

namespace Mealy

variable {σ α β γ : Type}

/-- The last state and all outputs. -/
def run (step : σ → α → σ × β) : σ → List α → σ × List β
  | s, [] => (s, [])
  | s, a :: l => ((run step (step s a).1 l).1, (step s a).2 :: (run step (step s a).1 l).2)

@[simp]
theorem run_nil (step : σ → α → σ × β) (s : σ) : run step s [] = (s, []) := rfl

@[simp]
theorem run_cons (step : σ → α → σ × β) (s : σ) (a : α) (l : List α) :
    run step s (a :: l) = ((run step (step s a).1 l).1, (step s a).2 :: (run step (step s a).1 l).2) := rfl

/-- Two parts of a list: the second is read in the state the first left. -/
theorem run_append (step : σ → α → σ × β) : ∀ (s : σ) (l l' : List α),
    run step s (l ++ l') = ((run step (run step s l).1 l').1, (run step s l).2 ++ (run step (run step s l).1 l').2)
  | _, [], _ => rfl
  | s, a :: l, l' => by simp only [List.cons_append, run_cons, run_append step (step s a).1 l l']

theorem length_run (step : σ → α → σ × β) : ∀ (s : σ) (l : List α), (run step s l).2.length = l.length
  | _, [] => rfl
  | s, a :: l => by rw [run_cons, List.length_cons, List.length_cons, length_run step (step s a).1 l]

/-- Each output is that of the step in the state that the inputs before it left. -/
theorem getElem?_run (step : σ → α → σ × β) : ∀ (s : σ) (l : List α) (i : ℕ),
    (run step s l).2[i]? = l[i]?.map fun a => (step (run step s (l.take i)).1 a).2
  | _, [], _ => rfl
  | _, _ :: _, 0 => rfl
  | s, a :: l, i + 1 => by
    rw [run_cons, List.getElem?_cons_succ, List.getElem?_cons_succ, getElem?_run step (step s a).1 l i]
    rfl

/-- What every step keeps holds of the last state. -/
theorem run_state {f : σ → α → σ × β} {P : σ → Prop} (h : ∀ s a, P s → P (f s a).1) :
    ∀ {s : σ} (l : List α), P s → P (run f s l).1
  | _, [], hs => hs
  | _, a :: l, hs => run_state h l (h _ a hs)

/-- Machines that agree on the states that are kept. -/
theorem run_congr {f g : σ → α → σ × β} {P : σ → Prop} (hP : ∀ s a, P s → P (f s a).1)
    (h : ∀ s a, P s → f s a = g s a) : ∀ {s : σ} (l : List α), P s → run f s l = run g s l
  | _, [], _ => rfl
  | s, a :: l, hs => by rw [run_cons, run_cons, run_congr hP h l (hP s a hs), h s a hs]

/-- What holds of every output of a step in a state that is kept holds of all outputs. -/
theorem run_output {f : σ → α → σ × β} {P : σ → Prop} {Q : β → Prop} (hP : ∀ s a, P s → P (f s a).1)
    (hQ : ∀ s a, P s → Q (f s a).2) : ∀ {s : σ} (l : List α), P s → ∀ b ∈ (run f s l).2, Q b
  | _, [], _, _, hb => by simp at hb
  | s, a :: l, hs, b, hb => by
    rcases List.mem_cons.mp hb with rfl | hb
    · exact hQ s a hs
    · exact run_output hP hQ l (hP s a hs) b hb

/-! ### Cascades -/

/-- One input through a list of machines, each with its own state. -/
def stack : List (σ → α → σ × α) → List σ → α → List σ × α
  | f :: fs, s :: ss, a => ((f s a).1 :: (stack fs ss (f s a).2).1, (stack fs ss (f s a).2).2)
  | _, ss, a => (ss, a)

/-- A list through each machine in turn. -/
def passes : List (σ → α → σ × α) → List σ → List α → List σ × List α
  | f :: fs, s :: ss, l => ((run f s l).1 :: (passes fs ss (run f s l).2).1, (passes fs ss (run f s l).2).2)
  | _, ss, l => (ss, l)

theorem run_id (s : σ) : ∀ l : List α, run (fun s a => (s, a)) s l = (s, l)
  | [] => rfl
  | a :: l => by rw [run_cons, run_id s l]

theorem run_stack_cons (f : σ → α → σ × α) (fs : List (σ → α → σ × α)) : ∀ (s : σ) (ss : List σ) (l : List α),
    run (stack (f :: fs)) (s :: ss) l =
      ((run f s l).1 :: (run (stack fs) ss (run f s l).2).1, (run (stack fs) ss (run f s l).2).2)
  | _, _, [] => rfl
  | s, ss, a :: l => by
    simp only [run_cons, stack, run_stack_cons f fs (f s a).1 (stack fs ss (f s a).2).1 l]

/-- Running the cascade on a list is one pass of every machine over the list. -/
theorem run_stack : ∀ (fs : List (σ → α → σ × α)) (ss : List σ) (l : List α),
    fs.length = ss.length → run (stack fs) ss l = passes fs ss l
  | [], ss, l, _ => run_id ss l
  | f :: fs, [], l, h => by simp at h
  | f :: fs, s :: ss, l, h => by
    have hlen : fs.length = ss.length := by simpa using h
    rw [run_stack_cons, run_stack fs ss _ hlen]
    rfl

theorem length_stack : ∀ (fs : List (σ → α → σ × α)) (ss : List σ) (a : α), (stack fs ss a).1.length = ss.length
  | [], _, _ => rfl
  | _ :: _, [], _ => rfl
  | f :: fs, s :: ss, a => by
    rw [stack, List.length_cons, List.length_cons, length_stack fs ss (f s a).2]

/-- What each machine keeps of its state the cascade keeps of all of them. -/
theorem stack_state {P : σ → Prop} : ∀ {fs : List (σ → α → σ × α)}, (∀ f ∈ fs, ∀ s a, P s → P (f s a).1) →
    ∀ (ss : List σ) (a : α), (∀ s ∈ ss, P s) → ∀ s ∈ (stack fs ss a).1, P s
  | [], _, _, _, h => h
  | _ :: _, _, [], _, h => h
  | f :: fs, hfs, s :: ss, a, h => by
    obtain ⟨hf, hfs⟩ := List.forall_mem_cons.mp hfs
    obtain ⟨hs, hss⟩ := List.forall_mem_cons.mp h
    exact List.forall_mem_cons.mpr ⟨hf s a hs, stack_state hfs ss _ hss⟩

/-! ### Delays -/

section Delay

variable {η δ : Type} (hd : α → η)

/-- What each input finds: `p`, and then what the input before it left. -/
def delayed : η → List α → List η
  | _, [] => []
  | p, a :: l => p :: delayed (hd a) l

/-- What the next input would find. -/
def left : η → List α → η
  | p, [] => p
  | _, a :: l => left (hd a) l

@[simp]
theorem length_delayed : ∀ (p : η) (l : List α), (delayed hd p l).length = l.length
  | _, [] => rfl
  | p, a :: l => by rw [delayed, List.length_cons, List.length_cons, length_delayed (hd a) l]

theorem map_fst_delayed {ζ : Type} (g : α → ζ) (p : η) (l : List α) :
    (l.zip (delayed hd p l)).map (fun q => g q.1) = l.map g := by
  have hfst : (l.zip (delayed hd p l)).map Prod.fst = l :=
    List.map_fst_zip (Nat.le_of_eq (length_delayed hd p l).symm)
  calc (l.zip (delayed hd p l)).map (fun q => g q.1) = ((l.zip (delayed hd p l)).map Prod.fst).map g :=
        (List.map_map ..).symm
    _ = l.map g := by rw [hfst]

theorem map_snd_delayed (p : η) (l : List α) : (l.zip (delayed hd p l)).map Prod.snd = delayed hd p l :=
  List.map_snd_zip (Nat.le_of_eq (length_delayed hd p l))

theorem getElem?_delayed : ∀ (p : η) (l : List α) {i : ℕ}, i < l.length →
    (delayed hd p l)[i]? = if i = 0 then some p else l[i - 1]?.map hd
  | _, [], i, h => by simp at h
  | p, a :: l, 0, _ => rfl
  | p, a :: l, i + 1, h => by
    have hi : i < l.length := by simpa using h
    rw [delayed, List.getElem?_cons_succ, getElem?_delayed (hd a) l hi, if_neg (Nat.succ_ne_zero i), Nat.add_sub_cancel]
    cases i with
    | zero => rfl
    | succ i => rw [if_neg (Nat.succ_ne_zero i), Nat.add_sub_cancel, List.getElem?_cons_succ]

theorem left_eq : ∀ (p : η) {l : List α}, l ≠ [] → l[l.length - 1]?.map hd = some (left hd p l)
  | _, [], h => absurd rfl h
  | _, [a], _ => rfl
  | p, a :: b :: l, _ => by
    have ih := left_eq (hd a) (l := b :: l) (List.cons_ne_nil b l)
    rw [left, ← ih]
    rfl

/-- A machine fed with pairs of an input and what it finds. -/
theorem run_feed (inner : σ → β → σ × γ) (pre : α × η → β) (post : α × η → γ → δ) : ∀ (s : σ) (p : η) (l : List α),
    run (fun (q : σ × η) a =>
        (((inner q.1 (pre (a, q.2))).1, hd a), post (a, q.2) (inner q.1 (pre (a, q.2))).2)) (s, p) l =
      (((run inner s ((l.zip (delayed hd p l)).map pre)).1, left hd p l),
        List.zipWith post (l.zip (delayed hd p l)) (run inner s ((l.zip (delayed hd p l)).map pre)).2)
  | _, _, [] => rfl
  | s, p, a :: l => by
    rw [run_cons, run_feed inner pre post _ (hd a) l]
    rfl

/-- The same without an inner machine. -/
theorem run_delay (post : α × η → δ) : ∀ (p : η) (l : List α),
    run (fun p a => (hd a, post (a, p))) p l = (left hd p l, (l.zip (delayed hd p l)).map post)
  | _, [] => rfl
  | p, a :: l => by
    rw [run_cons, run_delay post (hd a) l]
    rfl

theorem left_append : ∀ (p : η) (l l' : List α), left hd p (l ++ l') = left hd (left hd p l) l'
  | _, [], _ => rfl
  | _, a :: l, l' => left_append (hd a) l l'

theorem left_of_ne_nil (p q : η) : ∀ {l : List α}, l ≠ [] → left hd p l = left hd q l
  | [], h => absurd rfl h
  | _ :: _, _ => rfl

end Delay

/-! ### Restarts -/

/-- Lists one after another, each read from what `reset` makes of the state that the one before it left. -/
def restart (reset : σ → σ) (step : σ → α → σ × β) : σ → List (List α) → σ × List (List β) :=
  run fun s l => run step (reset s) l

theorem length_restart (reset : σ → σ) (step : σ → α → σ × β) : ∀ (s : σ) (ls : List (List α)),
    (restart reset step s ls).2.map List.length = ls.map List.length
  | _, [] => rfl
  | s, l :: ls => by
    have ih := length_restart reset step (run step (reset s) l).1 ls
    unfold restart at ih ⊢
    rw [run_cons, List.map_cons, List.map_cons, ih, length_run]

section Restart

variable {η δ : Type} (hd : α → η)

/-- The inputs of lists that all start with `p`, with what each finds. -/
def found (p : η) (ls : List (List α)) : List (α × η) := ls.flatMap fun l => l.zip (delayed hd p l)

theorem found_cons (p : η) (l : List α) (ls : List (List α)) :
    found hd p (l :: ls) = l.zip (delayed hd p l) ++ found hd p ls := List.flatMap_cons

theorem map_found {ζ : Type} (g : α → ζ) (p : η) (ls : List (List α)) :
    (found hd p ls).map (fun q => g q.1) = ls.flatten.map g := by
  unfold found
  rw [List.map_flatMap, List.map_flatten, List.flatMap_def]
  exact congrArg List.flatten (List.map_congr_left fun l _ => map_fst_delayed hd g p l)

theorem length_found (p : η) (ls : List (List α)) : (found hd p ls).length = ls.flatten.length := by
  rw [← List.length_map (fun q => q.1), map_found hd (fun a => a), List.length_map]

/-- Machines fed with pairs that start anew with each list, while the inner machine goes on. -/
theorem restart_feed (inner : σ → β → σ × γ) (pre : α × η → β) (post : α × η → γ → δ) (p : η) :
    ∀ (s : σ) (q : η) {ls : List (List α)}, (∀ l ∈ ls, l ≠ []) →
      (restart (fun q => (q.1, p)) (fun (q : σ × η) a =>
          (((inner q.1 (pre (a, q.2))).1, hd a), post (a, q.2) (inner q.1 (pre (a, q.2))).2)) (s, q) ls).1 =
        ((run inner s ((found hd p ls).map pre)).1, left hd q ls.flatten) ∧
      (restart (fun q => (q.1, p)) (fun (q : σ × η) a =>
          (((inner q.1 (pre (a, q.2))).1, hd a), post (a, q.2) (inner q.1 (pre (a, q.2))).2)) (s, q) ls).2.flatten =
        List.zipWith post (found hd p ls) (run inner s ((found hd p ls).map pre)).2
  | _, _, [], _ => ⟨rfl, rfl⟩
  | s, q, l :: ls, h => by
    obtain ⟨hl, hls⟩ := List.forall_mem_cons.mp h
    have hrow := run_feed hd inner pre post s p l
    obtain ⟨ih1, ih2⟩ := restart_feed inner pre post p (run inner s ((l.zip (delayed hd p l)).map pre)).1 (left hd p l) hls
    unfold restart at ih1 ih2 ⊢
    rw [run_cons]
    dsimp only
    rw [hrow, found_cons, List.map_append, run_append]
    refine ⟨?_, ?_⟩
    · rw [ih1, List.flatten_cons, left_append, left_of_ne_nil hd p q hl]
    · rw [List.flatten_cons, ih2, List.zipWith_append]
      rw [length_run, List.length_map]

/-- The same without an inner machine. -/
theorem restart_delay (post : α × η → δ) (p : η) : ∀ (q : η) {ls : List (List α)}, (∀ l ∈ ls, l ≠ []) →
    (restart (fun _ => p) (fun p a => (hd a, post (a, p))) q ls).1 = left hd q ls.flatten ∧
    (restart (fun _ => p) (fun p a => (hd a, post (a, p))) q ls).2.flatten = (found hd p ls).map post
  | _, [], _ => ⟨rfl, rfl⟩
  | q, l :: ls, h => by
    obtain ⟨hl, hls⟩ := List.forall_mem_cons.mp h
    have hrow := run_delay hd post p l
    obtain ⟨ih1, ih2⟩ := restart_delay post p (left hd p l) hls
    unfold restart at ih1 ih2 ⊢
    rw [run_cons]
    dsimp only
    rw [hrow]
    refine ⟨?_, ?_⟩
    · rw [ih1, List.flatten_cons, left_append, left_of_ne_nil hd p q hl]
    · rw [List.flatten_cons, ih2, found_cons, List.map_append]

end Restart

/-- A stack of machines that each start anew with a list is the stack of the machines, all started anew. -/
theorem stack_restart : ∀ (fs : List (σ → α → σ × α)) (rs : List (σ → σ)) (ss : List σ) (l : List α),
    rs.length = fs.length → ss.length = fs.length →
    stack (List.zipWith (fun f r s l => run f (r s) l) fs rs) ss l = run (stack fs) (List.zipWith (· ·) rs ss) l
  | [], [], [], l, _, _ => (run_id _ l).symm
  | f :: fs, r :: rs, s :: ss, l, hr, hs => by
    have ih := stack_restart fs rs ss (run f (r s) l).2 (Nat.succ.inj hr) (Nat.succ.inj hs)
    rw [List.zipWith_cons_cons, List.zipWith_cons_cons, run_stack_cons, ← ih]
    rfl

end Mealy
