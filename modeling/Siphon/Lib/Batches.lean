/-
# Sequences in batches and in chunks

A map of sequences that keeps a state (`Continued`) gives on a chunk and then
on the next one what it gives on the two at once. A batched implementation of
it reads one buffer with a block for each sequence, and one state for all. If
one call on a batch does to each block what the map does to it, then calls on
the chunks of the batch, cut anywhere along its positions, give the chunks of
what the map gives on the whole sequences.

Key definitions: `cut`, `run`, `Continued`, `Batched`, `Chunked`.
Key theorems: `run_cut`, `chunked_of`.
-/
import Mathlib.Algebra.GroupWithZero.Nat
import Siphon.Lib.Fallible
import Siphon.Lib.Rows

namespace Batches

open Rows Fallible

variable {α β σ τ ε : Type}

/-- The chunks of a batch with `c` entries at each position, cut into pieces of `ts` positions. -/
def cut (b c : ℕ) : (ℕ → List α) → List ℕ → List (List α)
  | _, [] => []
  | xs, t :: ts => (rows b fun i => (xs i).take (t * c)) :: cut b c (fun i => (xs i).drop (t * c)) ts

/-- One call for each chunk, with the state handed on. -/
def run (step : ℕ → τ → List α → Except ε (List β × τ)) : List (ℕ × List α) → τ → Except ε (List (List β) × τ)
  | [], st => .ok ([], st)
  | (t, x) :: chunks, st => do
    let (out, st) ← step t st x
    let (outs, st) ← run step chunks st
    .ok (out :: outs, st)

/-- A map of `t` positions that goes on from its state; `Fits p` are the states behind `p` positions. -/
structure Continued (c c' : ℕ) (Fits : ℕ → σ → Prop) (f : ℕ → σ → List α → List β × σ) : Prop where
  length : ∀ t s x, (f t s x).1.length = t * c'
  zero : ∀ {p s}, Fits p s → (f 0 s []).2 = s
  keep : ∀ {p t s x}, Fits p s → x.length = t * c → Fits (p + t) (f t s x).2
  append : ∀ {p t t' s x} (x' : List α), Fits p s → x.length = t * c →
    f (t + t') s (x ++ x') = ((f t s x).1 ++ (f t' (f t s x).2 x').1, (f t' (f t s x).2 x').2)

/-- One call on `b` sequences does to each of them what the map does. -/
structure Batched (b c : ℕ) (Fits : ℕ → σ → Prop) (f : ℕ → σ → List α → List β × σ) (batch : ℕ → (ℕ → σ) → τ)
    (step : ℕ → τ → List α → Except ε (List β × τ)) : Prop where
  congr : ∀ {p ss ss'}, (∀ i < b, ss i = ss' i) → batch p ss = batch p ss'
  step : ∀ {p t ss xs}, (∀ i < b, Fits p (ss i)) → (∀ i < b, (xs i).length = t * c) →
    step t (batch p ss) (rows b xs) =
      .ok (rows b fun i => (f t (ss i) (xs i)).1, batch (p + t) fun i => (f t (ss i) (xs i)).2)

theorem cut_congr {b c : ℕ} : ∀ {ts : List ℕ} {xs ys : ℕ → List α}, (∀ i < b, xs i = ys i) → cut b c xs ts = cut b c ys ts
  | [], _, _, _ => rfl
  | t :: ts, xs, ys, h => by
    rw [cut, cut, rows_congr fun i hi => by rw [h i hi], cut_congr fun i hi => by rw [h i hi]]

/-- **Chunk by chunk is at once**, for every sequence of the batch. -/
theorem run_cut {b c c' : ℕ} {Fits : ℕ → σ → Prop} {f : ℕ → σ → List α → List β × σ} {batch : ℕ → (ℕ → σ) → τ}
    {step : ℕ → τ → List α → Except ε (List β × τ)} (hf : Continued c c' Fits f) (hb : Batched b c Fits f batch step) :
    ∀ {ts : List ℕ} {p : ℕ} {ss : ℕ → σ} {xs : ℕ → List α}, (∀ i < b, Fits p (ss i)) →
      (∀ i < b, (xs i).length = ts.sum * c) → run step (ts.zip (cut b c xs ts)) (batch p ss) =
        .ok (cut b c' (fun i => (f ts.sum (ss i) (xs i)).1) ts, batch (p + ts.sum) fun i => (f ts.sum (ss i) (xs i)).2)
  | [], p, ss, xs, hs, hx => by
    have hsame : ∀ i < b, ss i = (f ([] : List ℕ).sum (ss i) (xs i)).2 := by
      intro i hi
      have hnil : xs i = [] := List.length_eq_zero_iff.mp ((hx i hi).trans (Nat.zero_mul c))
      rw [hnil]
      exact (hf.zero (hs i hi)).symm
    exact congrArg (fun st => Except.ok ([], st)) (hb.congr hsame)
  | t :: ts, p, ss, xs, hs, hx => by
    have htake : ∀ i < b, ((xs i).take (t * c)).length = t * c := by
      intro i hi
      rw [List.length_take, hx i hi, List.sum_cons, Nat.add_mul]
      omega
    have hdrop : ∀ i < b, ((xs i).drop (t * c)).length = ts.sum * c := by
      intro i hi
      rw [List.length_drop, hx i hi, List.sum_cons, Nat.add_mul]
      omega
    have hwhole : ∀ i < b, f (t :: ts).sum (ss i) (xs i) =
        ((f t (ss i) ((xs i).take (t * c))).1 ++
            (f ts.sum (f t (ss i) ((xs i).take (t * c))).2 ((xs i).drop (t * c))).1,
          (f ts.sum (f t (ss i) ((xs i).take (t * c))).2 ((xs i).drop (t * c))).2) := by
      intro i hi
      have happ := @Continued.append _ _ _ _ _ _ _ hf p t ts.sum _ _ ((xs i).drop (t * c)) (hs i hi) (htake i hi)
      rwa [List.take_append_drop] at happ
    have ih := run_cut hf hb (fun i hi => hf.keep (hs i hi) (htake i hi)) hdrop
    rw [cut, List.zip_cons_cons, run, hb.step hs htake, ok_bind]
    dsimp only
    rw [ih, ok_bind]
    refine congrArg Except.ok (Prod.ext ?_ ?_)
    · rw [cut]
      refine congrArg₂ List.cons (rows_congr fun i hi => ?_) (cut_congr fun i hi => ?_)
      · rw [hwhole i hi, List.take_left' (hf.length _ _ _)]
      · rw [hwhole i hi, List.drop_left' (hf.length _ _ _)]
    · rw [List.sum_cons, ← Nat.add_assoc]
      refine hb.congr fun i hi => ?_
      rw [← List.sum_cons, hwhole i hi]

/-- A batch `x` of `t` positions: the pass over the whole of it gives `full`, the pass over a sequence of it that
sequence's part of `full`, and calls on the chunks of any cut the chunks of `full`. -/
structure Chunked (b t c c' : ℕ) (ts : List ℕ) (x : List α) (full : List β) (whole : Except ε (List β))
    (one : List α → Except ε (List β)) (step : ℕ → τ → List α → Except ε (List β × τ)) (new last : τ) : Prop where
  whole : whole = .ok full
  length : full.length = b * t * c'
  sequences : ∀ i < b, one (row x (t * c) i) = .ok (row full (t * c') i)
  chunks : run step (ts.zip (cut b c (row x (t * c)) ts)) new = .ok (cut b c' (row full (t * c')) ts, last)

/-- What the map gives on each sequence is what every way of calling gives. -/
theorem chunked_of {b t c c' : ℕ} {ts : List ℕ} {x : List α} {Fits : ℕ → σ → Prop} {f : ℕ → σ → List α → List β × σ}
    {batch : ℕ → (ℕ → σ) → τ} {step : ℕ → τ → List α → Except ε (List β × τ)} {one : List α → Except ε (List β)}
    {whole : Except ε (List β)} {s : σ} {new : τ} (hf : Continued c c' Fits f) (hb : Batched b c Fits f batch step)
    (hs : Fits 0 s) (hnew : new = batch 0 fun _ => s) (hts : ts.sum = t) (hx : x.length = b * t * c)
    (hwhole : whole = .ok (rows b fun i => (f t s (row x (t * c) i)).1))
    (hone : ∀ i < b, one (row x (t * c) i) = .ok (f t s (row x (t * c) i)).1) :
    Chunked b t c c' ts x (rows b fun i => (f t s (row x (t * c) i)).1) whole one step new
      (batch t fun i => (f t s (row x (t * c) i)).2) := by
  subst hts hnew
  have hblock : x.length = b * (ts.sum * c) := by rw [hx, Nat.mul_assoc]
  have hrow : ∀ i < b, (row x (ts.sum * c) i).length = ts.sum * c := fun i hi => length_row_of_lt hblock hi
  have hout : ∀ i < b, row (rows b fun i => (f ts.sum s (row x (ts.sum * c) i)).1) (ts.sum * c') i =
      (f ts.sum s (row x (ts.sum * c) i)).1 := fun i hi => row_rows (fun _ _ => hf.length _ _ _) hi
  refine ⟨hwhole, ?_, fun i hi => ?_, ?_⟩
  · rw [length_rows fun _ _ => hf.length _ _ _, Nat.mul_assoc]
  · rw [hone i hi, hout i hi]
  · rw [run_cut hf hb (fun _ _ => hs) hrow, Nat.zero_add, cut_congr hout]

end Batches
