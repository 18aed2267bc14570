/-
# The pass as a machine

A layer is a machine that reads token after token: its state is the
recurrence's and the two rows that the token shift saves. A pass lets each
layer read all tokens before the next one does, which is what the stack of the
layers does token by token. The sequences of a batch follow one another in the
same recurrence: each starts it where the one before it left it, and the token
shift of each starts from the saved state.

Key definitions: `layerStep`, `modelStep`, `LayerState.resume`, `rowStep`.
Key theorems: `attention_rows`, `layersForward_eq`, `forward_rows`,
`forward_eq`.
-/
import Siphon.Rwkv.Step

namespace Siphon
namespace Rwkv

open Mealy Fallible

section Sequence

variable {F : Type} [Field F] [LinearOrder F] (fn : Functions F) {cfg : Config F} (i : ℕ)
  (lp : LayerParams F cfg.hiddenSize)

/-! ### A layer as a machine -/

/-- The first half of a layer reads a token. -/
def attnStep (s : List F × List F) (tok : Token F) : (List F × List F) × Token F :=
  let r := wkvStep fn.exp cfg.hiddenSize s.1 (tokenInputs fn i lp (tok, s.2))
  ((r.1, attnHidden fn lp tok.x), attnOut fn i lp (tok, s.2) r.2)

/-- The second half. -/
def ffnStep (prev : List F) (tok : Token F) : List F × Token F :=
  (ffnHidden fn lp tok.x, { tok with x := ffnOut fn lp (tok.x, prev) })

def layerStep (st : LayerState F) (tok : Token F) : LayerState F × Token F :=
  let r := attnStep fn i lp (st.wkv, st.attnPrev) tok
  let r' := ffnStep fn lp st.ffnPrev r.2
  ({ wkv := r.1.1, attnPrev := r.1.2, ffnPrev := r'.1 }, r'.2)

/-- What a sequence starts with: the recurrence goes on, the token shift starts from the saved state. -/
def LayerState.resume {F : Type} (saved st : LayerState F) : LayerState F :=
  { wkv := st.wkv, attnPrev := saved.attnPrev, ffnPrev := saved.ffnPrev }

/-- A layer reads the sequences of a batch. -/
def rowStep (saved st : LayerState F) (row : List (Token F)) : LayerState F × List (Token F) :=
  run (layerStep fn i lp) (saved.resume st) row

/-- One half reads all tokens of a sequence before the other does. -/
theorem run_layerStep (l : List (Token F)) : ∀ st : LayerState F,
    run (layerStep fn i lp) st l =
      ({ wkv := (run (attnStep fn i lp) (st.wkv, st.attnPrev) l).1.1
         attnPrev := (run (attnStep fn i lp) (st.wkv, st.attnPrev) l).1.2
         ffnPrev := (run (ffnStep fn lp) st.ffnPrev (run (attnStep fn i lp) (st.wkv, st.attnPrev) l).2).1 },
        (run (ffnStep fn lp) st.ffnPrev (run (attnStep fn i lp) (st.wkv, st.attnPrev) l).2).2) := by
  induction l with
  | nil => exact fun _ => rfl
  | cons tok l ih =>
    intro st
    rw [run_cons, ih]
    rfl

/-- The first half of a layer on a batch, and the second. -/
def attnRows (saved : LayerState F) :
    List F × List F → List (List (Token F)) → (List F × List F) × List (List (Token F)) :=
  restart (fun s => (s.1, saved.attnPrev)) (attnStep fn i lp)

def ffnRows (saved : LayerState F) : List F → List (List (Token F)) → List F × List (List (Token F)) :=
  restart (fun _ => saved.ffnPrev) (ffnStep fn lp)

theorem length_attnRows (saved : LayerState F) (s : List F × List F) (rows : List (List (Token F))) :
    (attnRows fn i lp saved s rows).2.map List.length = rows.map List.length := length_restart _ _ s rows

theorem length_ffnRows (saved : LayerState F) (s : List F) (rows : List (List (Token F))) :
    (ffnRows fn lp saved s rows).2.map List.length = rows.map List.length := length_restart _ _ s rows

/-- One half reads all sequences before the other does. -/
theorem run_rowStep (saved : LayerState F) (rows : List (List (Token F))) : ∀ st : LayerState F,
    run (rowStep fn i lp saved) st rows =
      ({ wkv := (attnRows fn i lp saved (st.wkv, st.attnPrev) rows).1.1
         attnPrev := (attnRows fn i lp saved (st.wkv, st.attnPrev) rows).1.2
         ffnPrev := (ffnRows fn lp saved st.ffnPrev (attnRows fn i lp saved (st.wkv, st.attnPrev) rows).2).1 },
        (ffnRows fn lp saved st.ffnPrev (attnRows fn i lp saved (st.wkv, st.attnPrev) rows).2).2) := by
  induction rows with
  | nil => exact fun _ => rfl
  | cons row rows ih =>
    intro st
    rw [run_cons, ih, rowStep, run_layerStep]
    rfl

/-! ### The rows before the rows -/

section Shift

omit [Field F] [LinearOrder F]

/-- In a sequence each row but the first follows the one before it. -/
theorem shift_eq {α : Type} (f : α → List F) (prev : List F) (l : List α) :
    shift l.length prev (l.map f) = delayed f prev l := by
  apply List.ext_getElem?
  intro i
  unfold shift
  rw [List.length_map, List.getElem?_map]
  by_cases hi : i < l.length
  · rw [List.getElem?_range hi, Option.map_some, getElem?_delayed f prev l hi, Nat.mod_eq_of_lt hi]
    by_cases h0 : i = 0
    · rw [if_pos h0, if_pos h0]
    · have hpred : i - 1 < (l.map f).length := by rw [List.length_map]; omega
      rw [if_neg h0, if_neg h0, List.getD_eq_getElem?_getD, ← List.getElem?_map, List.getElem?_eq_getElem hpred,
        Option.getD_some]
  · have hrange : (List.range l.length)[i]? = none := List.getElem?_eq_none (by rw [List.length_range]; omega)
    have hdelayed : (delayed f prev l)[i]? = none := List.getElem?_eq_none (by rw [length_delayed]; omega)
    rw [hrange, hdelayed]
    rfl

/-- The shift does not look over the start of a sequence. -/
theorem shift_append {T : ℕ} {prev : List F} {h h' : List (List F)} (hT : 0 < T) (hlen : h.length = T) :
    shift T prev (h ++ h') = shift T prev h ++ shift T prev h' := by
  unfold shift
  rw [List.length_append, List.range_add, List.map_append, List.map_map]
  refine congrArg₂ (· ++ ·) (List.map_congr_left fun i hi => ?_) (List.map_congr_left fun i _ => ?_)
  · have hi := List.mem_range.mp hi
    rw [List.getD_eq_getElem?_getD, List.getD_eq_getElem?_getD, List.getElem?_append_left (by omega)]
  · rw [Function.comp_apply, hlen, Nat.add_mod_left]
    split_ifs with h0
    · rfl
    · have hi : 0 < i := Nat.pos_of_ne_zero fun hi => h0 (by rw [hi, Nat.zero_mod])
      rw [List.getD_eq_getElem?_getD, List.getD_eq_getElem?_getD, List.getElem?_append_right (by omega), hlen]
      congr 2
      omega

theorem shift_rows {α : Type} {T : ℕ} (hT : 0 < T) (f : α → List F) (prev : List F) : ∀ {rows : List (List α)},
    (∀ row ∈ rows, row.length = T) → shift T prev (rows.flatten.map f) = (found f prev rows).map Prod.snd
  | [], _ => rfl
  | row :: rows, h => by
    obtain ⟨hrow, hrows⟩ := List.forall_mem_cons.mp h
    rw [List.flatten_cons, List.map_append, shift_append hT (by rw [List.length_map, hrow]), shift_rows hT f prev hrows,
      found_cons, List.map_append, map_snd_delayed, ← shift_eq, hrow]

end Shift

theorem zipWith_fst {α β γ : Type} (f : α → γ) {l : List α} {l' : List β} (h : l'.length = l.length) :
    List.zipWith (fun a _ => f a) l l' = l.map f := by
  have hfst : (l.zip l').map Prod.fst = l := List.map_fst_zip h.ge
  rw [← List.map_uncurry_zip_eq_zipWith]
  conv_rhs => rw [← hfst, List.map_map]
  rfl

/-! ### The halves of a layer -/

/-- The sequences of a call: `B` of `T` tokens each. -/
structure Call.Shaped (call : Call) (rows : List (List (Token F))) : Prop where
  count : rows.length = call.B
  width : ∀ row ∈ rows, row.length = call.T
  pos : 0 < call.T
  ne_nil : rows ≠ []

section Shaped

omit [Field F] [LinearOrder F]

variable {call : Call} {rows : List (List (Token F))}

theorem Call.Shaped.length (h : call.Shaped rows) : rows.flatten.length = call.B * call.T := by
  rw [List.length_flatten, List.map_congr_left h.width, List.map_const', List.sum_replicate, h.count]
  rfl

theorem Call.Shaped.row_ne_nil (h : call.Shaped rows) : ∀ row ∈ rows, row ≠ [] :=
  fun row hrow => List.ne_nil_of_length_pos (by rw [h.width row hrow]; exact h.pos)

theorem Call.Shaped.flatten_ne_nil (h : call.Shaped rows) : rows.flatten ≠ [] := by
  apply List.ne_nil_of_length_pos
  rw [h.length, ← h.count]
  exact Nat.mul_pos (List.length_pos_of_ne_nil h.ne_nil) h.pos

/-- Rows of the same lengths. -/
theorem Call.Shaped.congr {rows' : List (List (Token F))} (h : call.Shaped rows)
    (hlen : rows'.map List.length = rows.map List.length) : call.Shaped rows' := by
  have hcount : rows'.length = rows.length := by
    have hcount := congrArg List.length hlen
    rwa [List.length_map, List.length_map] at hcount
  refine ⟨hcount.trans h.count, fun row' hrow' => ?_, h.pos, fun hnil => h.ne_nil ?_⟩
  · have hmem : row'.length ∈ rows.map List.length := hlen ▸ List.mem_map_of_mem hrow'
    obtain ⟨row, hrow, he⟩ := List.mem_map.mp hmem
    rw [← he, h.width row hrow]
  · rw [hnil] at hcount
    exact List.length_eq_zero_iff.mp hcount.symm

end Shaped

variable [IsStrictOrderedRing F] {i lp}

/-- **The first half of a layer on a batch**: the recurrence goes on from sequence to sequence. -/
theorem attention_rows {call : Call} {slot : Slot F} {rows : List (List (Token F))} (hH : 0 < cfg.numHeads)
    (hD : cfg.headDim = 64) (hs : call.takesFused → lp.Supported) (hv : lp.vL.isSome ↔ i ≠ 0)
    (hslot : slot.Sized cfg.hiddenSize) (hrows : call.Shaped rows) :
    attention fn call i lp slot (rows.flatten.map (·.x)) (if i = 0 then none else some (rows.flatten.map (·.vFirst))) =
      some ((attnRows fn i lp slot.state (slot.state.wkv, slot.state.attnPrev) rows).1.1,
        (attnRows fn i lp slot.state (slot.state.wkv, slot.state.attnPrev) rows).1.2,
        (attnRows fn i lp slot.state (slot.state.wkv, slot.state.attnPrev) rows).2.flatten.map (·.x),
        (attnRows fn i lp slot.state (slot.state.wkv, slot.state.attnPrev) rows).2.flatten.map (·.vFirst)) := by
  obtain ⟨hstate, houts⟩ := restart_feed (fun tok : Token F => attnHidden fn lp tok.x)
    (wkvStep fn.exp cfg.hiddenSize) (tokenInputs fn i lp) (attnOut fn i lp) slot.state.attnPrev slot.state.wkv
    slot.state.attnPrev hrows.row_ne_nil
  have hshift := shift_rows hrows.pos (fun tok : Token F => attnHidden fn lp tok.x) slot.state.attnPrev hrows.width
  have hlast := left_eq (fun tok : Token F => attnHidden fn lp tok.x) slot.state.attnPrev hrows.flatten_ne_nil
  have hfound := fun {γ : Type} (g : Token F → γ) =>
    map_found (fun tok : Token F => attnHidden fn lp tok.x) g slot.state.attnPrev rows
  have hlen : (found (fun tok : Token F => attnHidden fn lp tok.x) slot.state.attnPrev rows).length =
      call.B * call.T := (length_found _ _ _).trans hrows.length
  generalize found (fun tok : Token F => attnHidden fn lp tok.x) slot.state.attnPrev rows = qs
    at hstate houts hshift hfound hlen
  have hatt := attention_eq fn call qs hH hD hs hv hslot hlen
    (by rw [hfound fun tok => attnHidden fn lp tok.x]; exact hshift)
    (by rw [hfound fun tok => attnHidden fn lp tok.x, List.getElem?_map, ← hrows.length]; exact hlast)
  have hlenO : (run (wkvStep fn.exp cfg.hiddenSize) slot.state.wkv (qs.map (tokenInputs fn i lp))).2.length =
      qs.length := by rw [length_run, List.length_map]
  have hfirst : List.zipWith (fun q o => (attnOut fn i lp q o).vFirst) qs
      (run (wkvStep fn.exp cfg.hiddenSize) slot.state.wkv (qs.map (tokenInputs fn i lp))).2 =
        qs.map (tokenFirst fn i lp) := zipWith_fst (tokenFirst fn i lp) hlenO
  have hstate : (attnRows fn i lp slot.state (slot.state.wkv, slot.state.attnPrev) rows).1 = _ := hstate
  have houts : (attnRows fn i lp slot.state (slot.state.wkv, slot.state.attnPrev) rows).2.flatten = _ := houts
  rw [hfound (·.x), hfound (·.vFirst)] at hatt
  rw [hatt, hstate, houts, List.map_zipWith, List.map_zipWith, hfirst]

omit [IsStrictOrderedRing F] in
/-- **The second half on a batch.** -/
theorem ffn_rows {call : Call} {slot : Slot F} {rows : List (List (Token F))} (hC : 0 < cfg.hiddenSize)
    (hrows : call.Shaped rows) :
    ffn fn call lp slot (rows.flatten.map (·.x)) =
      some ((ffnRows fn lp slot.state slot.state.ffnPrev rows).1,
        (ffnRows fn lp slot.state slot.state.ffnPrev rows).2.flatten.map (·.x)) := by
  obtain ⟨hstate, houts⟩ := restart_delay (fun tok : Token F => ffnHidden fn lp tok.x)
    (fun q : Token F × List F => { q.1 with x := ffnOut fn lp (q.1.x, q.2) }) slot.state.ffnPrev slot.state.ffnPrev
    hrows.row_ne_nil
  have hshift := shift_rows hrows.pos (fun tok : Token F => ffnHidden fn lp tok.x) slot.state.ffnPrev hrows.width
  have hlast := left_eq (fun tok : Token F => ffnHidden fn lp tok.x) slot.state.ffnPrev hrows.flatten_ne_nil
  have hfound := fun {γ : Type} (g : Token F → γ) =>
    map_found (fun tok : Token F => ffnHidden fn lp tok.x) g slot.state.ffnPrev rows
  have hlen : (found (fun tok : Token F => ffnHidden fn lp tok.x) slot.state.ffnPrev rows).length =
      call.B * call.T := (length_found _ _ _).trans hrows.length
  generalize found (fun tok : Token F => ffnHidden fn lp tok.x) slot.state.ffnPrev rows = qs at houts hshift hfound hlen
  have hx : (qs.map fun q => (q.1.x, q.2)).map Prod.fst = rows.flatten.map (·.x) := by
    rw [List.map_map, ← hfound (·.x)]
    rfl
  have hh : ((qs.map fun q => (q.1.x, q.2)).map fun q => ffnHidden fn lp q.1) =
      rows.flatten.map fun tok => ffnHidden fn lp tok.x := by
    rw [List.map_map, ← hfound fun tok => ffnHidden fn lp tok.x]
    rfl
  have hffn : ffn fn call lp slot ((qs.map fun q => (q.1.x, q.2)).map Prod.fst) = _ :=
    ffn_eq fn call hC (by rw [List.length_map, hlen]) (by rw [hh, hshift, List.map_map]; rfl)
      (by rw [hh, List.getElem?_map, ← hrows.length]; exact hlast)
  have hstate : (ffnRows fn lp slot.state slot.state.ffnPrev rows).1 = _ := hstate
  have houts : (ffnRows fn lp slot.state slot.state.ffnPrev rows).2.flatten = _ := houts
  rw [hx] at hffn
  rw [hffn, hstate, houts, List.map_map, List.map_map]
  rfl

omit [IsStrictOrderedRing F] in
/-- The second half leaves `v_first` alone. -/
theorem ffnStep_vFirst (l : List (Token F)) : ∀ prev : List F,
    (run (ffnStep fn lp) prev l).2.map (·.vFirst) = l.map (·.vFirst) := by
  induction l with
  | nil => exact fun _ => rfl
  | cons tok l ih =>
    intro prev
    rw [run_cons, List.map_cons, List.map_cons, ih]
    rfl

omit [IsStrictOrderedRing F] in
theorem ffnRows_vFirst (saved : LayerState F) (rows : List (List (Token F))) : ∀ prev : List F,
    (ffnRows fn lp saved prev rows).2.flatten.map (·.vFirst) = rows.flatten.map (·.vFirst) := by
  induction rows with
  | nil => exact fun _ => rfl
  | cons row rows ih =>
    intro prev
    have ih := ih (run (ffnStep fn lp) saved.ffnPrev row).1
    unfold ffnRows restart at ih ⊢
    rw [run_cons, List.flatten_cons, List.flatten_cons, List.map_append, List.map_append, ih, ffnStep_vFirst]

end Sequence

/-! ### All layers -/

section Layers

variable {F : Type} [Field F] [LinearOrder F] (fn : Functions F) {cfg : Config F}

/-- The layers from layer `i` on. -/
def layerSteps : ℕ → List (LayerParams F cfg.hiddenSize) → List (LayerState F → Token F → LayerState F × Token F)
  | _, [] => []
  | i, lp :: layers => layerStep fn i lp :: layerSteps (i + 1) layers

theorem length_layerSteps : ∀ (i : ℕ) (layers : List (LayerParams F cfg.hiddenSize)),
    (layerSteps fn i layers).length = layers.length
  | _, [] => rfl
  | i, _ :: layers => by rw [layerSteps, List.length_cons, List.length_cons, length_layerSteps (i + 1) layers]

/-- A layer leaves rows of the sizes of the model. -/
theorem layerStep_sized (i : ℕ) (lp : LayerParams F cfg.hiddenSize) (st : LayerState F) (tok : Token F) :
    (layerStep fn i lp st tok).1.Sized cfg.hiddenSize where
  wkv := (length_wkvStep fn.exp _ _ _).1
  attnPrev := length_tab _ _
  ffnPrev := length_tab _ _

theorem layerSteps_sized : ∀ (i : ℕ) (layers : List (LayerParams F cfg.hiddenSize)),
    ∀ f ∈ layerSteps fn i layers, ∀ st tok, (f st tok).1.Sized cfg.hiddenSize
  | _, [] => fun _ hf => absurd hf List.not_mem_nil
  | i, lp :: layers =>
    List.forall_mem_cons.mpr ⟨layerStep_sized fn i lp, layerSteps_sized (i + 1) layers⟩

/-- The layers on the sequences of a batch. -/
def rowSteps (i : ℕ) (layers : List (LayerParams F cfg.hiddenSize)) (saved : List (LayerState F)) :
    List (LayerState F → List (Token F) → LayerState F × List (Token F)) :=
  List.zipWith (fun step r st row => run step (r st) row) (layerSteps fn i layers) (saved.map LayerState.resume)

theorem rowSteps_cons (i : ℕ) (lp : LayerParams F cfg.hiddenSize) (layers : List (LayerParams F cfg.hiddenSize))
    (st : LayerState F) (saved : List (LayerState F)) :
    rowSteps fn i (lp :: layers) (st :: saved) = rowStep fn i lp st :: rowSteps fn (i + 1) layers saved := rfl

variable [IsStrictOrderedRing F]

/-- **The loop over the layers** lets each layer pass over all sequences. -/
theorem layersForward_eq {call : Call} (hH : 0 < cfg.numHeads) (hD : cfg.headDim = 64) :
    ∀ {layers : List (LayerParams F cfg.hiddenSize)} {i : ℕ} {slots : List (Slot F)} {rows : List (List (Token F))},
      (call.takesFused → ∀ lp ∈ layers, lp.Supported) →
      (∀ j lp, layers[j]? = some lp → (lp.vL.isSome ↔ i + j ≠ 0)) → slots.length = layers.length →
      (∀ slot ∈ slots, slot.Sized cfg.hiddenSize) → call.Shaped rows →
      layersForward fn call i layers slots (rows.flatten.map (·.x))
          (if i = 0 then none else some (rows.flatten.map (·.vFirst))) =
        some ((passes (rowSteps fn i layers (slots.map Slot.state)) (slots.map Slot.state) rows).1,
          (passes (rowSteps fn i layers (slots.map Slot.state)) (slots.map Slot.state) rows).2.flatten.map (·.x))
  | [], i, slots, rows, _, _, hlen, _, _ => by
    obtain rfl := List.length_eq_zero_iff.mp hlen
    rfl
  | lp :: layers, i, [], rows, _, _, hlen, _, _ => by cases hlen
  | lp :: layers, i, slot :: slots, rows, hs, hv, hlen, hslots, hrows => by
    have hC : 0 < cfg.hiddenSize := by
      rw [Config.hiddenSize, hD]
      omega
    obtain ⟨hslot, hslots⟩ := List.forall_mem_cons.mp hslots
    have hv0 : lp.vL.isSome ↔ i ≠ 0 := hv 0 lp rfl
    have hatt := attention_rows fn hH hD (fun hf => hs hf lp List.mem_cons_self) hv0 hslot hrows
    have hlayer := run_rowStep fn i lp slot.state rows slot.state
    have hlenR := length_attnRows fn i lp slot.state (slot.state.wkv, slot.state.attnPrev) rows
    generalize attnRows fn i lp slot.state (slot.state.wkv, slot.state.attnPrev) rows = r at hatt hlayer hlenR
    have hffn : ffn fn call lp slot (r.2.flatten.map (·.x)) = _ := ffn_rows fn hC (hrows.congr hlenR)
    have hfirst : (ffnRows fn lp slot.state slot.state.ffnPrev r.2).2.flatten.map (·.vFirst) = _ :=
      ffnRows_vFirst fn slot.state r.2 _
    have hlenR' := length_ffnRows fn lp slot.state slot.state.ffnPrev r.2
    generalize ffnRows fn lp slot.state slot.state.ffnPrev r.2 = r' at hffn hfirst hlayer hlenR'
    have hrest := layersForward_eq hH hD (i := i + 1) (fun hf lp' hlp' => hs hf lp' (List.mem_cons_of_mem lp hlp'))
      (fun j lp' hj => by rw [Nat.add_assoc, Nat.add_comm 1 j]; exact hv (j + 1) lp' hj) (Nat.succ.inj hlen) hslots
      ((hrows.congr hlenR).congr hlenR')
    rw [if_neg (Nat.succ_ne_zero i), hfirst] at hrest
    rw [layersForward, hatt]
    simp only [Option.bind_eq_bind, Option.bind_some, hffn, hrest]
    rw [List.map_cons, rowSteps_cons, passes, hlayer]

end Layers

/-! ### The pass -/

section Pass

variable {F : Type} [Field F] [LinearOrder F] (fn : Functions F)

/-- The rows of a state have the sizes of the model. -/
structure Model.Holds (m : Model F) (st : List (LayerState F)) : Prop where
  length : st.length = m.layers.length
  sized : ∀ s ∈ st, s.Sized m.config.hiddenSize

/-- A `state_out` of its own has the shapes of a state. -/
def StateOut.Fits (m : Model F) : StateOut F → Prop
  | .other out => m.Holds out
  | .same => True

/-- A token after the embedding. -/
def Model.token (m : Model F) (x : List F) : Token F where
  x := if m.config.normFirst then layerNorm fn m.config.hiddenSize m.preNormW.1 m.preNormB.1 m.config.normEps x else x
  vFirst := []

/-- A token through all layers. -/
def modelStep (m : Model F) : List (LayerState F) → Token F → List (LayerState F) × Token F :=
  stack (layerSteps fn 0 m.layers)

/-- The logits of a token. -/
def Model.logits (m : Model F) (tok : Token F) : List F :=
  vecMat m.lmHead.1 m.config.hiddenSize m.vocab
    (layerNorm fn m.config.hiddenSize m.finalNormW.1 m.finalNormB.1 m.config.normEps tok.x)

/-- A batch reads its sequences one after another. -/
def modelRows (m : Model F) (saved : List (LayerState F)) :
    List (LayerState F) → List (List (Token F)) → List (LayerState F) × List (List (Token F)) :=
  restart (List.zipWith LayerState.resume saved) (modelStep fn m)

section Slots

omit [Field F] [LinearOrder F]

variable {m : Model F} {st : List (LayerState F)} {out : StateOut F}

theorem slots_state (hst : m.Holds st) (hout : out.Fits m) : (slots st out).map Slot.state = st := by
  cases out with
  | other o =>
    have hlen : o.length = st.length := hout.length.trans hst.length.symm
    unfold slots
    rw [List.map_zipWith]
    exact (zipWith_fst id hlen).trans (List.map_id st)
  | same =>
    unfold slots
    rw [List.map_map]
    exact List.map_id st

theorem length_slots (hst : m.Holds st) (hout : out.Fits m) : (slots st out).length = m.layers.length := by
  have hlen := congrArg List.length (slots_state hst hout)
  rw [List.length_map] at hlen
  exact hlen.trans hst.length

theorem slots_sized (hst : m.Holds st) (hout : out.Fits m) :
    ∀ slot ∈ slots st out, slot.Sized m.config.hiddenSize := by
  intro slot hslot
  cases out with
  | other o =>
    have hslot : slot ∈ List.zipWith Slot.separate st o := hslot
    rw [← List.map_uncurry_zip_eq_zipWith] at hslot
    obtain ⟨⟨s, s'⟩, hmem, rfl⟩ := List.mem_map.mp hslot
    obtain ⟨hs, hs'⟩ := List.of_mem_zip hmem
    exact ⟨hst.sized s hs, hout.sized s' hs'⟩
  | same =>
    obtain ⟨s, hs, rfl⟩ := List.mem_map.mp hslot
    exact hst.sized s hs

end Slots

omit [LinearOrder F] in
/-- The logits of all rows, by either product. -/
theorem head_eq {m : Model F} {T : ℕ} {xs : List (List F)} (hC : 0 < m.config.hiddenSize)
    (hT : 1 < T ∨ xs.length = 1) (hx : ∀ x ∈ xs, x.length = m.config.hiddenSize) :
    head m T xs = some (xs.map (vecMat m.lmHead.1 m.config.hiddenSize m.vocab)) := by
  unfold head
  by_cases h1 : 1 < T
  · rw [if_pos h1]
    rfl
  · obtain ⟨x, rfl⟩ := List.length_eq_one_iff.mp (hT.resolve_left h1)
    rw [if_neg h1, List.flatten_singleton, gemv16_eq m.lmHead hC (hx x List.mem_cons_self)]
    rfl

omit [LinearOrder F] in
/-- What the first rows of the layers are. -/
theorem map_token (m : Model F) (xs : List (List F)) :
    (if m.config.normFirst then
      xs.map (layerNorm fn m.config.hiddenSize m.preNormW.1 m.preNormB.1 m.config.normEps) else xs) =
      (xs.map (m.token fn)).map (·.x) := by
  rw [List.map_map]
  cases hfirst : m.config.normFirst with
  | true =>
    rw [if_pos rfl]
    refine List.map_congr_left fun x _ => ?_
    simp only [Function.comp_apply, Model.token, hfirst, if_true]
  | false =>
    rw [if_neg Bool.false_ne_true]
    refine (List.map_id xs).symm.trans (List.map_congr_left fun x _ => ?_)
    simp only [Function.comp_apply, Model.token, hfirst, Bool.false_eq_true, if_false, id]

/-- A model whose layers the kernels of a call with one token can run, as far as the call needs them. -/
structure Model.Runs (call : Call) (m : Model F) : Prop where
  heads : 0 < m.config.numHeads
  headDim : m.config.headDim = 64
  layers : call.takesFused → ∀ lp ∈ m.layers, lp.Supported

omit [Field F] [LinearOrder F] in
theorem Model.Supported.runs {m : Model F} (hm : m.Supported) (call : Call) : m.Runs call :=
  ⟨hm.heads, hm.headDim, fun _ => hm.layers⟩

/-- The state after a batch has the sizes of the model. -/
theorem modelStep_holds {m : Model F} {st : List (LayerState F)} (hst : m.Holds st) (tok : Token F) :
    m.Holds (modelStep fn m st tok).1 :=
  ⟨(length_stack _ st tok).trans hst.length,
    stack_state (fun f hf st tok _ => layerSteps_sized fn 0 m.layers f hf st tok) st tok hst.sized⟩

theorem run_holds {m : Model F} {st : List (LayerState F)} (hst : m.Holds st) (toks : List (Token F)) :
    m.Holds (run (modelStep fn m) st toks).1 := by
  have hkept : ∀ (s : List (LayerState F)) tok, m.Holds s → m.Holds (modelStep fn m s tok).1 :=
    fun _ tok hs => modelStep_holds fn hs tok
  exact run_state hkept toks hst

theorem length_rowSteps {m : Model F} {st : List (LayerState F)} (hst : st.length = m.layers.length) :
    (rowSteps fn 0 m.layers st).length = st.length := by
  rw [rowSteps, List.length_zipWith, List.length_map, length_layerSteps, hst, Nat.min_self]

/-- The layers on the sequences of a batch are the token machine on them. -/
theorem run_rowSteps {m : Model F} {st : List (LayerState F)} (hst : st.length = m.layers.length)
    (rows : List (List (Token F))) :
    run (stack (rowSteps fn 0 m.layers st)) st rows = modelRows fn m st st rows := by
  have hlayers := length_layerSteps fn 0 m.layers
  have hstep : ∀ (s : List (LayerState F)) row, s.length = m.layers.length →
      stack (rowSteps fn 0 m.layers st) s row =
        run (modelStep fn m) (List.zipWith LayerState.resume st s) row := by
    intro s row hs
    have hresume : List.zipWith (· ·) (st.map LayerState.resume) s = List.zipWith LayerState.resume st s := by
      rw [List.zipWith_map_left]
    rw [rowSteps, stack_restart _ _ s row (by rw [List.length_map, hst, hlayers]) (hs.trans hlayers.symm), hresume]
    rfl
  have hkept : ∀ (s : List (LayerState F)) row, s.length = m.layers.length →
      (stack (rowSteps fn 0 m.layers st) s row).1.length = m.layers.length := fun s row hs =>
    (length_stack _ s row).trans hs
  exact run_congr hkept hstep rows hst

variable [IsStrictOrderedRing F]

/-- **The pass over a batch** lets the token machine read one sequence after another. The last product takes all rows
unless there is one token a sequence. -/
theorem forward_rows {env : Env} {m : Model F} {T : ℕ} {ids : List (Row ℤ T)} {st : List (LayerState F)}
    {out : StateOut F} (hm : m.Runs ⟨env, ids.length, T⟩) (hT : 0 < T) (hne : ids ≠ []) (hhead : 1 < T ∨ ids.length = 1)
    (hst : m.Holds st) (hout : out.Fits m) :
    forward fn env m ids st out = (ids.mapM fun row : Row ℤ T => row.1.mapM m.embedRow).map fun xs =>
      ((modelRows fn m st st (xs.map (List.map (m.token fn)))).2.flatten.map (m.logits fn),
        (modelRows fn m st st (xs.map (List.map (m.token fn)))).1) := by
  have hC : 0 < m.config.hiddenSize := by
    have hheads := hm.heads
    rw [Config.hiddenSize, hm.headDim]
    omega
  unfold forward
  dsimp only
  rw [mapM_flatten, List.mapM_map]
  cases hxs : ids.mapM fun row : Row ℤ T => row.1.mapM m.embedRow with
  | none =>
    refine (congrArg (fun o => Option.bind (Option.map _ o) _) hxs).trans ?_
    rfl
  | some xs =>
    refine (congrArg (fun o => Option.bind (Option.map _ o) _) hxs).trans ?_
    rw [Option.map_some, Option.bind_some, Option.map_some]
    have hrows : Call.Shaped ⟨env, ids.length, T⟩ (xs.map (List.map (m.token fn))) := by
      refine ⟨(List.length_map _).trans (length_mapM hxs), fun row hrow => ?_, hT, fun hnil => hne ?_⟩
      · obtain ⟨x, hx, rfl⟩ := List.mem_map.mp hrow
        obtain ⟨row, -, hrow⟩ := exists_of_mapM hxs x hx
        exact (List.length_map _).trans ((length_mapM hrow).trans row.2)
      · apply List.length_eq_zero_iff.mp
        rw [← length_mapM hxs, List.map_eq_nil_iff.mp hnil]
        rfl
    have htokens : xs.flatten.map (m.token fn) = (xs.map (List.map (m.token fn))).flatten := List.map_flatten
    have hlayers : layersForward fn ⟨env, ids.length, T⟩ 0 m.layers (slots st out)
        ((xs.map (List.map (m.token fn))).flatten.map (·.x)) none = _ :=
      layersForward_eq fn hm.heads hm.headDim hm.layers (fun j lp hj => (Nat.zero_add j).symm ▸ m.vL j lp hj)
        (length_slots hst hout) (slots_sized hst hout) hrows
    rw [slots_state hst hout, ← run_stack _ _ _ (length_rowSteps fn hst.length), run_rowSteps fn hst.length] at hlayers
    have hlenR : (modelRows fn m st st (xs.map (List.map (m.token fn)))).2.map List.length = _ := length_restart _ _ _ _
    generalize modelRows fn m st st (xs.map (List.map (m.token fn))) = r at hlayers hlenR ⊢
    rw [map_token, htokens]
    refine (congrArg (fun o => Option.bind o _) hlayers).trans ?_
    rw [Option.bind_some]
    dsimp only
    rw [head_eq hC, Option.bind_eq_bind, Option.bind_some, List.map_map, List.map_map]
    · rfl
    · by_cases h1 : 1 < T
      · exact .inl h1
      · have hone : r.2.flatten.length = ids.length * T := (hrows.congr hlenR).length
        rw [hhead.resolve_left h1, Nat.one_mul] at hone
        rw [List.length_map, List.length_map]
        exact .inr (by omega)
    · intro x hx
      obtain ⟨y, -, rfl⟩ := List.mem_map.mp hx
      exact length_tab _ _

omit [Field F] [LinearOrder F] [IsStrictOrderedRing F] in
theorem zipWith_resume_self (st : List (LayerState F)) : List.zipWith LayerState.resume st st = st := by
  rw [List.zipWith_self]
  exact List.map_id st

omit [IsStrictOrderedRing F] in
theorem modelRows_singleton (m : Model F) (st : List (LayerState F)) (toks : List (Token F)) :
    modelRows fn m st st [toks] = ((run (modelStep fn m) st toks).1, [(run (modelStep fn m) st toks).2]) := by
  unfold modelRows restart
  rw [run_cons, zipWith_resume_self]
  rfl

/-- **The pass over one sequence** runs the token machine over it. -/
theorem forward_eq {env : Env} {m : Model F} {p : List ℤ} {st : List (LayerState F)} {out : StateOut F}
    (hm : m.Runs ⟨env, 1, p.length⟩) (hp : p ≠ []) (hst : m.Holds st) (hout : out.Fits m) :
    forward fn env m [⟨p, rfl⟩] st out = (p.mapM m.embedRow).map fun xs =>
      ((run (modelStep fn m) st (xs.map (m.token fn))).2.map (m.logits fn),
        (run (modelStep fn m) st (xs.map (m.token fn))).1) := by
  rw [forward_rows fn hm (List.length_pos_of_ne_nil hp) (List.cons_ne_nil _ _) (.inr rfl) hst hout, List.mapM_cons]
  cases p.mapM m.embedRow with
  | none => rfl
  | some xs =>
    simp only [List.mapM_nil, Option.pure_def, Option.bind_eq_bind, Option.bind_some, Option.map_some, List.map_cons,
      List.map_nil, modelRows_singleton, List.flatten_singleton]

end Pass

end Rwkv
end Siphon
