/-
# One sequence, piece by piece

A machine that goes on from the state it was left in does what it does without
the pause. So a sequence may be cut into pieces anywhere, whatever the paths
that the calls take and the tensors they write their state into.

Key definitions: `forwardPieces`.
Key theorems: `forwardPieces_eq`, `forwardPieces_eq_forward`.
-/
import Siphon.Rwkv.Batch
import Mathlib.Algebra.Order.Field.Rat

namespace Siphon
namespace Rwkv

open Mealy Fallible

section Pieces

variable {F : Type} [Field F] [LinearOrder F] (fn : Functions F)

/-- The pieces of a sequence, one call each, with the returned state handed on. -/
def forwardPieces (env : Env) (m : Model F) : List (List ℤ × StateOut F) → List (LayerState F) →
    Option (List (List F) × List (LayerState F))
  | [], st => some ([], st)
  | (p, out) :: pieces, st => do
    let (logits, st) ← forward fn env m [⟨p, rfl⟩] st out
    let (rest, st) ← forwardPieces env m pieces st
    some (logits ++ rest, st)

variable [IsStrictOrderedRing F]

/-- The pieces run the machine over the tokens of all of them. -/
theorem forwardPieces_eq {env : Env} {m : Model F} : ∀ {pieces : List (List ℤ × StateOut F)} {st : List (LayerState F)},
    (∀ q ∈ pieces, m.Runs ⟨env, 1, q.1.length⟩) → (∀ q ∈ pieces, q.1 ≠ []) → (∀ q ∈ pieces, q.2.Fits m) → m.Holds st →
    forwardPieces fn env m pieces st = ((pieces.map Prod.fst).flatten.mapM m.embedRow).map fun xs =>
      ((run (modelStep fn m) st (xs.map (m.token fn))).2.map (m.logits fn),
        (run (modelStep fn m) st (xs.map (m.token fn))).1)
  | [], st, _, _, _, _ => rfl
  | (p, out) :: pieces, st, hm, hne, hout, hst => by
    obtain ⟨hm1, hm⟩ := List.forall_mem_cons.mp hm
    obtain ⟨hne1, hne⟩ := List.forall_mem_cons.mp hne
    obtain ⟨hout1, hout⟩ := List.forall_mem_cons.mp hout
    rw [forwardPieces, forward_eq fn hm1 hne1 hst hout1, List.map_cons, List.flatten_cons, List.mapM_append]
    cases p.mapM m.embedRow with
    | none => rfl
    | some xs =>
      have hrest := forwardPieces_eq hm hne hout (run_holds fn hst (xs.map (m.token fn)))
      simp only [Option.map_some, Option.bind_eq_bind, Option.bind_some, hrest]
      cases (pieces.map Prod.fst).flatten.mapM m.embedRow with
      | none => rfl
      | some ys =>
        simp only [Option.map_some, Option.bind_some, Option.pure_def, List.map_append, run_append]

/-- **Chunked decoding is the whole pass**: for every cut of a sequence into pieces, whatever the paths of the calls
and the tensors they write, the logits and the last state are those of one call; and there is a result when every
token has a row in the embedding. -/
theorem forwardPieces_eq_forward {env env' : Env} {m : Model F} {pieces : List (List ℤ × StateOut F)}
    {st : List (LayerState F)} {out : StateOut F} (hm : m.Supported) (hne : pieces ≠ [])
    (hp : ∀ q ∈ pieces, q.1 ≠ []) (hout : ∀ q ∈ pieces, q.2.Fits m) (hst : m.Holds st) (hout' : out.Fits m) :
    forwardPieces fn env m pieces st = forward fn env' m [⟨(pieces.map Prod.fst).flatten, rfl⟩] st out ∧
      ((∀ q ∈ pieces, ∀ id ∈ q.1, (m.embedRow id).isSome) → (forwardPieces fn env m pieces st).isSome) := by
  have hpieces := forwardPieces_eq fn (fun q _ => hm.runs ⟨env, 1, q.1.length⟩) hp hout hst
  have hflat : (pieces.map Prod.fst).flatten ≠ [] := by
    obtain ⟨q, pieces, rfl⟩ := List.exists_cons_of_ne_nil hne
    rw [List.map_cons, List.flatten_cons]
    exact List.append_ne_nil_of_left_ne_nil (hp q List.mem_cons_self) _
  refine ⟨hpieces.trans (forward_eq fn (hm.runs _) hflat hst hout').symm, fun hids => ?_⟩
  rw [hpieces, Option.isSome_map]
  apply isSome_mapM
  intro id hid
  obtain ⟨p, hp, hid⟩ := List.mem_flatten.mp hid
  obtain ⟨q, hq, rfl⟩ := List.mem_map.mp hp
  exact hids q hq id hid

end Pieces

/-! ### Models the kernels are not written for -/

section Misaligned

variable {F : Type} [Field F] [LinearOrder F] (fn : Functions F) {cfg : Config F} {lp : LayerParams F cfg.hiddenSize}

theorem attention_misaligned {call : Call} {i : ℕ} (hf : call.takesFused) (hr : lp.wL.rank % 8 ≠ 0)
    (hC : 1 < cfg.hiddenSize) (slot : Slot F) (x : List (List F)) (vFirst : Option (List (List F))) :
    attention fn call i lp slot x vFirst = none := by
  have hgates : ∀ xw xa xg xv, gates fn call i lp xw xa xg xv = none := by
    intro xw xa xg xv
    unfold gates fusedGates
    dsimp only
    rw [if_pos hf, loraH1_misaligned (z := 0) (by decide) hr hC (by decide)]
    rfl
  unfold attention
  simp only [hgates, Option.bind_eq_bind, Option.bind_none, Option.bind_fun_none]

/-- A call with one token cannot run a layer whose rank is not a multiple of 8. -/
theorem forward_misaligned {env : Env} {m : Model F} {lp : LayerParams F m.config.hiddenSize}
    {layers : List (LayerParams F m.config.hiddenSize)} (hf : env.fused) (hl : m.layers = lp :: layers)
    (hr : lp.wL.rank % 8 ≠ 0) (hC : 1 < m.config.hiddenSize) (id : ℤ) (st : List (LayerState F)) (out : StateOut F) :
    forward fn env m [⟨[id], rfl⟩] st out = none := by
  have hlayers : ∀ x, layersForward fn ⟨env, 1, 1⟩ 0 m.layers (slots st out) x none = none := by
    intro x
    rw [hl]
    cases slots st out with
    | nil => rfl
    | cons slot slots =>
      rw [layersForward, attention_misaligned fn ⟨rfl, rfl, hf⟩ hr hC]
      rfl
  unfold forward
  dsimp only
  generalize List.mapM m.embedRow _ = xs
  cases xs with
  | none => rfl
  | some xs => exact congrArg (fun o => Option.bind o _) (hlayers _)

end Misaligned

/-! ### A small model -/

def zeroRow (n : ℕ) : Row ℚ n := ⟨List.replicate n 0, List.length_replicate⟩

def zeroLora (rank C : ℕ) : Lora ℚ C := ⟨rank, zeroRow _, zeroRow _⟩

/-- A layer whose `w` gate has the given rank. -/
def zeroLayer (rank C : ℕ) : LayerParams ℚ C :=
  ⟨zeroRow _, zeroRow _, zeroRow _, zeroRow _, zeroRow _, zeroRow _, zeroRow _, zeroRow _, zeroRow _, zeroRow _,
    zeroRow _, zeroRow _, zeroLora rank C, zeroRow _, zeroLora 8 C, zeroRow _, none, zeroLora 8 C, zeroRow _, zeroRow _,
    zeroRow _, zeroRow _, zeroRow _, zeroRow _, zeroRow _, zeroRow _, 64, zeroRow _, zeroRow _⟩

/-- One layer, one head, and one row in the embedding. -/
def oneLayer (rank : ℕ) : Model ℚ where
  config := ⟨1, 64, false, 1, 1⟩
  vocab := 8
  embed := [zeroRow _]
  preNormW := zeroRow _
  preNormB := zeroRow _
  finalNormW := zeroRow _
  finalNormB := zeroRow _
  lmHead := zeroRow _
  layers := [zeroLayer rank _]
  vL i lp h := by
    cases i with
    | zero =>
      obtain rfl := Option.some.inj h
      exact iff_of_false Bool.false_ne_true (absurd rfl)
    | succ i => cases h

def zeroState : List (LayerState ℚ) :=
  [{ wkv := List.replicate (64 * 64) 0, attnPrev := List.replicate 64 0, ffnPrev := List.replicate 64 0 }]

theorem zeroState_holds (rank : ℕ) : (oneLayer rank).Holds zeroState where
  length := rfl
  sized := List.forall_mem_singleton.mpr ⟨List.length_replicate, List.length_replicate, List.length_replicate⟩

/-- Exact functions that agree with `exp`, `tanh` and `sqrt` at 0. -/
def flat : Functions ℚ := ⟨fun _ => 1, fun _ => 0, fun x => x⟩

theorem flat_positive : flat.Positive := ⟨fun _ => zero_lt_one, fun _ hx => hx⟩

/-- Two tokens, one by one, into the tensors they are read from. -/
def twoPieces : List (List ℤ × StateOut ℚ) := [([0], .same), ([0], .same)]

theorem twoPieces_fits (m : Model ℚ) : ∀ q ∈ twoPieces, q.1 ≠ [] ∧ q.2.Fits m := by
  simp [twoPieces, StateOut.Fits]

/-- The echo of one token. -/
def oneHeard : List (LayerState ℚ) := [⟨spike (64 * 64) 1, spike 64 1, spike 64 0⟩]

/-- The echo answers the first of two pieces. -/
theorem forwardPieces_eq_forward_echo :
    forwardPieces flat ⟨true, false⟩ echo twoPieces oneHeard =
      forward flat ⟨true, false⟩ echo [⟨[0, 0], rfl⟩] oneHeard .same ∧
    ∃ c l, 0 < c ∧ (forward flat ⟨true, false⟩ echo [⟨[0, 0], rfl⟩] oneHeard .same).map Prod.fst =
      some (spike 8 c :: l) := by
  have hheard : Echoes 1 1 oneHeard := spikes_echoes 1 1
  have hfits : StateOut.Fits (echo : Model ℚ) .same := trivial
  refine ⟨(forwardPieces_eq_forward flat echo_supported (List.cons_ne_nil _ _)
    (fun q hq => (twoPieces_fits echo q hq).1) (fun q hq => (twoPieces_fits echo q hq).2) hheard.holds hfits).1, ?_⟩
  obtain ⟨d, hd, -, hlogits⟩ := modelStep_echo flat_positive hheard ((echo : Model ℚ).token flat (spike 64 0))
  obtain ⟨c, hc, hlogits⟩ := hlogits rfl
  rw [forward_alone flat (echo_supported.runs ⟨⟨true, false⟩, 1, 2⟩) (by decide) hheard.holds hfits (echo_embed rfl),
    List.replicate_succ, List.map_cons, run_cons, List.map_cons, hlogits]
  exact ⟨_, _, mul_pos hc (by linarith), rfl⟩

/-- With a rank of 4 the pieces cannot be run, but the whole sequence can. -/
theorem forwardPieces_ne_forward : ¬ ∀ (fn : Functions ℚ) (env : Env) (m : Model ℚ)
    (pieces : List (List ℤ × StateOut ℚ)) (st : List (LayerState ℚ)) (out : StateOut ℚ), pieces ≠ [] →
    (∀ q ∈ pieces, q.1 ≠ []) → (∀ q ∈ pieces, q.2.Fits m) → m.Holds st → out.Fits m →
    forwardPieces fn env m pieces st = forward fn env m [⟨(pieces.map Prod.fst).flatten, rfl⟩] st out := by
  intro h
  have hfits : StateOut.Fits (oneLayer 4) .same := trivial
  have hboth := h flat ⟨true, false⟩ (oneLayer 4) twoPieces zeroState .same (List.cons_ne_nil _ _)
    (fun q hq => (twoPieces_fits (oneLayer 4) q hq).1) (fun q hq => (twoPieces_fits (oneLayer 4) q hq).2)
    (zeroState_holds 4) hfits
  have hpieces : forwardPieces flat ⟨true, false⟩ (oneLayer 4) twoPieces zeroState = none := by
    have hfirst : forward flat ⟨true, false⟩ (oneLayer 4) [⟨[0], rfl⟩] zeroState .same = none :=
      forward_misaligned flat rfl rfl (by decide) (by decide) 0 zeroState .same
    rw [twoPieces, forwardPieces, hfirst]
    rfl
  have hruns : (oneLayer 4).Runs ⟨⟨true, false⟩, 1, 2⟩ := ⟨by decide, rfl, fun h => absurd h.2.1 (by decide)⟩
  have hwhole : (forward flat ⟨true, false⟩ (oneLayer 4) [⟨[0, 0], rfl⟩] zeroState .same).isSome := by
    rw [forward_eq flat hruns (List.cons_ne_nil _ _) (zeroState_holds 4) hfits]
    rfl
  rw [hpieces] at hboth
  exact Option.isSome_iff_ne_none.mp hwhole hboth.symm

end Rwkv
end Siphon
