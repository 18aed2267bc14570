/-
# When a load panics

What `load` asks of the tensors of an opened model is there
(`tensor_isSome`), so only a shape that is indexed beyond its rank, or a
remainder by zero, makes it panic. The first axis of a scalar does, the second
axis of `o_proj` and two head counts of the configuration that are zero, each
unless a check before it has refused the checkpoint: `Trips` follows the
checks in their order.

Key definitions: `Panics`, `FirstScalar`, `Trips`.
Key theorems: `tensor_isSome`, `loadTensors_panics_iff`, `load_never_panics_iff`.
-/
import Siphon.Qwen.Table

namespace Siphon
namespace Qwen
namespace Checkpoint

open U64 Fallible Stloader Safetensors

/-! ### Panics -/

section Panics

variable {α β : Type} {x : Except LoadFault α} {f : α → Except LoadFault β}

/-- The step panics. -/
def Panics (x : Except LoadFault α) : Prop := ∃ what, x = .error (.panic what)

theorem panics_bind : Panics (x >>= f) ↔ Panics x ∨ ∃ a, x = .ok a ∧ Panics (f a) := by
  unfold Panics
  simp only [bind_eq_error_iff, exists_or]
  refine or_congr Iff.rfl ⟨?_, ?_⟩
  · rintro ⟨what, a, ha, h⟩
    exact ⟨a, ha, what, h⟩
  · rintro ⟨a, ha, what, h⟩
    exact ⟨what, a, ha, h⟩

/-- A step that does not panic, before others. -/
theorem panics_bind_right (hx : ¬ Panics x) : Panics (x >>= f) ↔ ∃ a, x = .ok a ∧ Panics (f a) := by
  rw [panics_bind, or_iff_right hx]

/-- A step before others that do not panic. -/
theorem panics_bind_left (hf : ∀ a, x = .ok a → ¬ Panics (f a)) : Panics (x >>= f) ↔ Panics x := by
  rw [panics_bind, or_iff_left]
  rintro ⟨a, ha, h⟩
  exact hf a ha h

theorem not_panics_bind (hx : ¬ Panics x) (hf : ∀ a, ¬ Panics (f a)) : ¬ Panics (x >>= f) := by
  rw [panics_bind_left fun a _ => hf a]
  exact hx

@[simp]
theorem not_panics_ok (a : α) : ¬ Panics (.ok a) := by simp [Panics]

@[simp]
theorem not_panics_err (e : LoadError) : ¬ Panics (.error (.err e) : Except LoadFault α) := by simp [Panics]

@[simp]
theorem not_panics_orElse (e : LoadError) (o : Option α) : ¬ Panics (orElse (.err e) o) := by
  rcases o with - | a
  · exact not_panics_err e
  · exact not_panics_ok a

@[simp]
theorem not_panics_mapError {ε : Type} (x : Except ε α) (g : ε → LoadError) :
    ¬ Panics (x.mapError fun e => .err (g e)) := by
  rcases x with e | a
  · exact not_panics_err (g e)
  · exact not_panics_ok a

/-- An early return. -/
theorem not_panics_ite {p : Prop} [Decidable p] {y : Except LoadFault α} (hx : ¬ Panics x) (hy : ¬ Panics y) :
    ¬ Panics (if p then x else y) := by
  split
  · exact hx
  · exact hy

theorem panics_index (shape : List ℕ) (i : ℕ) : Panics (index shape i) ↔ shape.length ≤ i := by
  unfold index
  rcases hi : shape[i]? with - | d
  · simpa [Panics, orElse] using List.getElem?_eq_none_iff.mp hi
  · simpa [Panics, orElse] using (List.getElem?_eq_some_iff.mp hi).1

theorem panics_remainder (a b : ℕ) : Panics (remainder a b) ↔ b = 0 := by
  unfold remainder
  split <;> simp_all [Panics]

end Panics

/-! ### What the steps ask for -/

section Steps

variable (m : Safetensors.Model) (tc : Value)

/-- A tensor without axes. -/
def Scalar (name : String) : Prop := ∃ e, entry m name = some e ∧ e.shape = []

/-- A tensor with an axis. -/
def Axed (name : String) : Prop := ∃ d, axis m name = some d

/-- One of the tensors is a scalar, and those before it have axes. -/
def FirstScalar : List String → Prop
  | [] => False
  | name :: names => Scalar m name ∨ Axed m name ∧ FirstScalar names

variable {m tc}

theorem not_panics_shapeOf (name : String) : ¬ Panics (shapeOf m name) := not_panics_orElse _ _

theorem panics_firstAxis {name : String} : Panics (firstAxis m name) ↔ Scalar m name := by
  unfold firstAxis Scalar
  rw [panics_bind_right (not_panics_shapeOf name)]
  simp only [shapeOf, orElse_eq_ok_iff, panics_index, Option.map_eq_some_iff]
  constructor
  · rintro ⟨shape, ⟨e, he, rfl⟩, h0⟩
    exact ⟨e, he, List.length_eq_zero_iff.mp (by omega)⟩
  · rintro ⟨e, he, h0⟩
    exact ⟨e.shape, ⟨e, he, rfl⟩, by simp [h0]⟩

/-- A first axis that is read before other steps. -/
theorem panics_firstAxis_bind {β : Type} {name : String} {f : ℕ → Except LoadFault β} :
    Panics (firstAxis m name >>= f) ↔ Scalar m name ∨ ∃ d, axis m name = some d ∧ Panics (f d) := by
  simp only [panics_bind, panics_firstAxis, firstAxis_eq_ok]

theorem panics_readLinear {lin : String} : Panics (readLinear m lin) ↔
    FirstScalar m [lin ++ "in_proj_qkv.weight", lin ++ "in_proj_z.weight", lin ++ "in_proj_b.weight",
      lin ++ "norm.weight"] := by
  have hrest : ∀ c v n h, ¬ Panics (do
      let convShape ← shapeOf m (lin ++ "conv1d.weight")
      let convKernel ← orElse (.err .convNoAxes) convShape.getLast?
      .ok (⟨c, v, n, h, convKernel⟩ : LinearShapes)) := fun c v n h =>
    not_panics_bind (not_panics_shapeOf _) fun _ => not_panics_bind (not_panics_orElse _ _) fun _ => not_panics_ok _
  unfold readLinear
  simp only [panics_firstAxis_bind, hrest, and_false, exists_false, or_false, FirstScalar, Axed, exists_and_right]

theorem not_panics_need (key : String) : ¬ Panics (need tc key) := not_panics_orElse _ _

theorem not_panics_readAttnHeads : ¬ Panics (readAttnHeads tc) :=
  not_panics_bind (not_panics_need _) fun _ => not_panics_bind (not_panics_need _) fun _ =>
    not_panics_bind (not_panics_need _) fun _ => not_panics_ok _

theorem not_panics_readLinearHeads : ¬ Panics (readLinearHeads tc) :=
  not_panics_bind (not_panics_need _) fun _ => not_panics_bind (not_panics_need _) fun _ =>
    not_panics_bind (not_panics_need _) fun _ => not_panics_bind (not_panics_need _) fun _ => not_panics_ok _

/-- A tensor with an axis has a last one. -/
theorem axed_iff {name : String} : Axed m name ↔ ∃ e k, entry m name = some e ∧ e.shape.getLast? = some k := by
  unfold Axed axis
  constructor
  · rintro ⟨d, hd⟩
    obtain ⟨e, he, hhead⟩ := Option.bind_eq_some_iff.mp hd
    have hne : e.shape ≠ [] := fun h0 => by simp [h0] at hhead
    exact ⟨e, _, he, List.getLast?_eq_some_getLast hne⟩
  · rintro ⟨e, k, he, hk⟩
    have hne : e.shape ≠ [] := fun h0 => by simp [h0] at hk
    exact ⟨_, by rw [he, Option.bind_some, List.head?_eq_some_head hne]⟩

theorem not_panics_readLayerCount : ¬ Panics (readLayerCount tc) :=
  not_panics_ite (not_panics_err _) (not_panics_bind (not_panics_need _) fun _ =>
    not_panics_ite (not_panics_err _) (not_panics_ok _))

theorem not_panics_readEmbedding (base : String) : ¬ Panics (readEmbedding m base) := by
  refine not_panics_bind (not_panics_shapeOf _) fun shape => ?_
  split
  · exact not_panics_ok _
  · exact not_panics_err _

theorem not_panics_firstLayers (layerTypes : List String) (n : ℕ) : ¬ Panics (firstLayers layerTypes n) := by
  unfold firstLayers
  split
  · exact not_panics_ok _
  · exact not_panics_err _

theorem not_panics_detectPrefix : ¬ Panics (detectPrefix m) := by
  unfold detectPrefix
  split
  · exact not_panics_err _
  · exact not_panics_ok _
  · exact not_panics_err _

end Steps

/-! ### The sizes and the cross-checks -/

section Trips

variable (tc : Value) (m : Safetensors.Model) (base : String)

/-- The configuration states these sizes. -/
def States (keys : List String) : Prop := ∀ key ∈ keys, ∃ n, cfgUsize tc key = some n

def linearAxes (l : ℕ) : List String :=
  [linName base l ++ "in_proj_qkv.weight", linName base l ++ "in_proj_z.weight", linName base l ++ "in_proj_b.weight",
    linName base l ++ "norm.weight"]

def projAxes (f : ℕ) : List String := [attName base f ++ "q_proj.weight", attName base f ++ "k_proj.weight"]

/-- What the cross-checks trip over: a zero head count, and an `o_proj` of less than two axes. -/
def CrossTrips (f : ℕ) : Prop :=
  cfgUsize tc "num_key_value_heads" = some 0 ∨ cfgUsize tc "linear_num_key_heads" = some 0 ∨
    ∃ e, entry m (attName base f ++ "o_proj.weight") = some e ∧ e.shape.length < 2

/-- What the steps behind the first linear layer trip over. -/
def HeadsTrip (l f : ℕ) : Prop :=
  FirstScalar m (projAxes base f) ∨
  (∀ name ∈ projAxes base f, Axed m name) ∧
  (∃ c v, axis m (linName base l ++ "in_proj_qkv.weight") = some c ∧
    axis m (linName base l ++ "in_proj_z.weight") = some v ∧ v ≤ c) ∧
  States tc ["linear_num_key_heads", "linear_num_value_heads", "linear_key_head_dim", "linear_value_head_dim"] ∧
  CrossTrips tc m base f

/-- What the steps behind the embedding trip over. -/
def SizesTrip (n : ℕ) : Prop :=
  Scalar m (layerName base 0 ++ "mlp.gate_proj.weight") ∨
  Axed m (layerName base 0 ++ "mlp.gate_proj.weight") ∧
  ∃ l f, firstLayers (layerTypesOf tc) n = .ok (l, f) ∧
    (FirstScalar m (linearAxes base l) ∨
      (∀ name ∈ linearAxes base l, Axed m name) ∧ Axed m (linName base l ++ "conv1d.weight") ∧
      States tc ["head_dim", "num_attention_heads", "num_key_value_heads"] ∧ HeadsTrip tc m base l f)

end Trips

/-- The tensors and the configuration that a load trips over. -/
def Trips (root : Value) (m : Safetensors.Model) : Prop :=
  ∃ base n, detectPrefix m = .ok base ∧ readLayerCount (textConfig root).1 = .ok n ∧
    (∃ e vocab hidden, entry m (base ++ "embed_tokens.weight") = some e ∧ e.shape = [vocab, hidden]) ∧
    SizesTrip (textConfig root).1 m base n

section Trips

variable {tc : Value} {m : Safetensors.Model} {base : String}

theorem exists_readEmbedding : (∃ p, readEmbedding m base = .ok p) ↔
    ∃ e vocab hidden, entry m (base ++ "embed_tokens.weight") = some e ∧ e.shape = [vocab, hidden] := by
  unfold readEmbedding shapeOf
  constructor
  · rintro ⟨p, hp⟩
    obtain ⟨shape, hshape, hp⟩ := bind_eq_ok hp
    obtain ⟨e, he, rfl⟩ := Option.map_eq_some_iff.mp (orElse_eq_ok hshape)
    split at hp
    · rename_i vocab hidden hs
      exact ⟨e, vocab, hidden, he, hs⟩
    · exact absurd hp (by simp)
  · rintro ⟨e, vocab, hidden, he, hs⟩
    simp [he, hs, orElse, ok_bind]

/-- Two axes of a tensor that are read for a check. -/
theorem panics_twoAxes {name : String} (p : ℕ → ℕ → Prop) [∀ i o, Decidable (p i o)] (e : ℕ → ℕ → LoadError) :
    Panics (do
      let shape ← shapeOf m name
      let oIn ← index shape 1
      let oOut ← index shape 0
      if p oIn oOut then .error (.err (e oIn oOut)) else .ok ()) ↔
    ∃ e, entry m name = some e ∧ e.shape.length < 2 := by
  have hlast : ∀ shape oIn, index shape 1 = .ok oIn → ¬ Panics (do
      let oOut ← index shape 0
      if p oIn oOut then .error (.err (e oIn oOut)) else .ok ()) := by
    intro shape oIn h1
    have hlt := (List.getElem?_eq_some_iff.mp (orElse_eq_ok h1)).1
    refine not_panics_bind ?_ fun _ => not_panics_ite (not_panics_err _) (not_panics_ok _)
    rw [panics_index]
    omega
  have hindex : ∀ shape, Panics (do
      let oIn ← index shape 1
      let oOut ← index shape 0
      if p oIn oOut then .error (.err (e oIn oOut)) else .ok ()) ↔ shape.length ≤ 1 := fun shape => by
    rw [panics_bind_left (hlast shape), panics_index]
  rw [panics_bind_right (not_panics_shapeOf _)]
  simp only [shapeOf, orElse_eq_ok_iff, Option.map_eq_some_iff, hindex]
  constructor
  · rintro ⟨shape, ⟨e, he, rfl⟩, hlen⟩
    exact ⟨e, he, by omega⟩
  · rintro ⟨e, he, hlen⟩
    exact ⟨_, ⟨e, he, rfl⟩, by omega⟩

theorem panics_crossCheck {att : String} {s : Sizes} : Panics (crossCheck m att s) ↔
    s.heads.numKvHeads = 0 ∨ s.config.numKHeads = 0 ∨
      ∃ e, entry m (att ++ "o_proj.weight") = some e ∧ e.shape.length < 2 := by
  unfold crossCheck
  simp only [panics_bind (x := remainder _ _), panics_remainder, panics_twoAxes]
  constructor
  · rintro (hkv | ⟨_, -, hk | ⟨_, -, ho⟩⟩)
    · exact .inl hkv
    · exact .inr (.inl hk)
    · exact .inr (.inr ho)
  · intro h
    by_cases hkv : s.heads.numKvHeads = 0
    · exact .inl hkv
    · refine .inr ⟨_, if_neg hkv, ?_⟩
      by_cases hk : s.config.numKHeads = 0
      · exact .inl hk
      · exact .inr ⟨_, if_neg hk, (h.resolve_left hkv).resolve_left hk⟩

theorem panics_readSizes : Panics (readSizes tc m base) ↔ ∃ n, readLayerCount tc = .ok n ∧
    (∃ p, readEmbedding m base = .ok p) ∧
    (Scalar m (layerName base 0 ++ "mlp.gate_proj.weight") ∨
      Axed m (layerName base 0 ++ "mlp.gate_proj.weight") ∧
      ∃ l f, firstLayers (layerTypesOf tc) n = .ok (l, f) ∧
        (FirstScalar m (linearAxes base l) ∨
          (∃ x, readLinear m (linName base l) = .ok x) ∧ (∃ h, readAttnHeads tc = .ok h) ∧
            FirstScalar m (projAxes base f))) := by
  have hrest : ∀ (emb : ℕ × ℕ) i n x h q k f, ¬ Panics (do
      let keyDim ← orElse (.err .convBelowValue) ((checkedSub x.convDim x.valueDim).map (· / 2))
      let config ← readLinearHeads tc
      .ok ((⟨emb.1, emb.2, i, n, x, h, q, k, keyDim, config⟩, f) : Sizes × ℕ)) := fun _ _ _ _ _ _ _ _ =>
    not_panics_bind (not_panics_orElse _ _) fun _ => not_panics_bind not_panics_readLinearHeads fun _ => not_panics_ok _
  unfold readSizes
  simp only [panics_bind_right not_panics_readLayerCount, panics_bind_right (not_panics_readEmbedding base),
    panics_bind_right (not_panics_firstLayers _ _), panics_bind_right not_panics_readAttnHeads, panics_firstAxis_bind,
    panics_bind (x := readLinear _ _), panics_readLinear, hrest, Prod.exists, FirstScalar, linearAxes, projAxes, Axed,
    exists_and_right, and_false, exists_false, or_false]

theorem exists_readLinear {l : ℕ} : (∃ x, readLinear m (linName base l) = .ok x) ↔
    (∀ name ∈ linearAxes base l, Axed m name) ∧ Axed m (linName base l ++ "conv1d.weight") := by
  simp only [linearAxes, List.forall_mem_cons, readLinear_eq_ok]
  constructor
  · rintro ⟨x, hc, hv, hn, hd, e, he, hk⟩
    exact ⟨⟨⟨_, hc⟩, ⟨_, hv⟩, ⟨_, hn⟩, ⟨_, hd⟩, by simp⟩, axed_iff.mpr ⟨e, _, he, hk⟩⟩
  · rintro ⟨⟨⟨c, hc⟩, ⟨v, hv⟩, ⟨n, hn⟩, ⟨d, hd⟩, -⟩, hconv⟩
    obtain ⟨e, k, he, hk⟩ := axed_iff.mp hconv
    exact ⟨⟨c, v, n, d, k⟩, hc, hv, hn, hd, e, he, hk⟩

theorem exists_readAttnHeads : (∃ h, readAttnHeads tc = .ok h) ↔
    States tc ["head_dim", "num_attention_heads", "num_key_value_heads"] := by
  simp only [States, List.forall_mem_cons, readAttnHeads_eq_ok]
  constructor
  · rintro ⟨x, hd, hn, hk⟩
    exact ⟨⟨_, hd⟩, ⟨_, hn⟩, ⟨_, hk⟩, by simp⟩
  · rintro ⟨⟨d, hd⟩, ⟨n, hn⟩, ⟨k, hk⟩, -⟩
    exact ⟨⟨d, n, k⟩, hd, hn, hk⟩

theorem exists_readLinearHeads : (∃ h, readLinearHeads tc = .ok h) ↔ States tc
    ["linear_num_key_heads", "linear_num_value_heads", "linear_key_head_dim", "linear_value_head_dim"] := by
  simp only [States, List.forall_mem_cons, readLinearHeads_eq_ok]
  constructor
  · rintro ⟨x, hk, hv, hkd, hvd⟩
    exact ⟨⟨_, hk⟩, ⟨_, hv⟩, ⟨_, hkd⟩, ⟨_, hvd⟩, by simp⟩
  · rintro ⟨⟨k, hk⟩, ⟨v, hv⟩, ⟨kd, hkd⟩, ⟨vd, hvd⟩, -⟩
    exact ⟨⟨k, v, kd, vd⟩, hk, hv, hkd, hvd⟩

/-! ### The rest of the load -/

section Rest

variable (hm : Backed m)

include hm in
theorem not_panics_want (name : String) (expect : ℕ) : ¬ Panics (want m name expect) := by
  obtain ⟨r, hr⟩ := tensor_isSome hm name
  unfold want
  rw [hr]
  refine not_panics_bind (not_panics_ok r) fun r => not_panics_bind (not_panics_mapError _ _) fun v => ?_
  exact not_panics_ite (not_panics_err _) (not_panics_ok _)

include hm in
/-- A tensor that is asked for before other steps. -/
theorem not_panics_want_bind {β : Type} {name : String} {expect : ℕ} {f : List Ieee.F32 → Except LoadFault β}
    (hf : ∀ v, ¬ Panics (f v)) : ¬ Panics (want m name expect >>= f) := not_panics_bind (not_panics_want hm name expect) hf

theorem not_panics_kindOf (layerTypes : List String) (l : ℕ) : ¬ Panics (kindOf layerTypes l) := by
  unfold kindOf
  split
  · exact not_panics_ite (not_panics_ok _) (not_panics_ite (not_panics_ok _) (not_panics_err _))
  · exact not_panics_err _

include hm in
theorem not_panics_readLayer (layerTypes : List String) (s : Sizes) (l : ℕ) :
    ¬ Panics (readLayer m base layerTypes s l) := by
  have hgdn : ∀ lp, ¬ Panics (readGdn m lp s) := fun lp => by
    unfold readGdn
    repeat refine not_panics_want_bind hm fun _ => ?_
    exact not_panics_ok _
  have hattn : ∀ ap, ¬ Panics (readAttn m ap s) := fun ap => by
    unfold readAttn
    repeat refine not_panics_want_bind hm fun _ => ?_
    exact not_panics_ok _
  have hweights : ∀ p, ¬ Panics (readLayerWeights m p s) := fun p => by
    unfold readLayerWeights
    repeat refine not_panics_want_bind hm fun _ => ?_
    exact not_panics_ok _
  unfold readLayer
  refine not_panics_bind (not_panics_kindOf layerTypes l) fun kind => not_panics_bind (hweights _) fun lw => ?_
  split
  · exact not_panics_bind (hgdn _) fun _ => not_panics_ok _
  · exact not_panics_bind (hattn _) fun _ => not_panics_ok _

theorem not_panics_mapM {α β : Type} {g : α → Except LoadFault β} (hg : ∀ a, ¬ Panics (g a)) :
    ∀ l : List α, ¬ Panics (l.mapM g)
  | [] => not_panics_ok _
  | a :: l => by
    rw [List.mapM_cons]
    exact not_panics_bind (hg a) fun _ => not_panics_bind (not_panics_mapM hg l) fun _ => not_panics_ok _

include hm in
theorem panics_loadTensors (dir : String) (root : Value) : Panics (loadTensors dir root m) ↔
    ∃ base, detectPrefix m = .ok base ∧ (Panics (readSizes (textConfig root).1 m base) ∨
      ∃ s f, readSizes (textConfig root).1 m base = .ok (s, f) ∧ Panics (crossCheck m (attName base f) s)) := by
  unfold loadTensors
  simp only [panics_bind_right not_panics_detectPrefix, panics_bind (x := readSizes _ _ _), Prod.exists]
  refine exists_congr fun base => and_congr_right fun _ => or_congr Iff.rfl (exists_congr fun s => exists_congr fun f =>
    and_congr_right fun _ => panics_bind_left fun _ _ => ?_)
  refine not_panics_bind (not_panics_ite (not_panics_err _) (not_panics_ok _)) fun rope =>
    not_panics_bind (not_panics_orElse _ _) fun eps => not_panics_bind ?_ fun lm => ?_
  · exact not_panics_ite (not_panics_ok _) (not_panics_ite (not_panics_ok _)
      (not_panics_ite (not_panics_ok _) (not_panics_err _)))
  · refine not_panics_want_bind hm fun _ => not_panics_want_bind hm fun _ => not_panics_bind ?_ fun _ => ?_
    · exact not_panics_mapM (not_panics_readLayer hm _ s) _
    · exact not_panics_want_bind hm fun _ => not_panics_ok _

include hm in
/-- What the load of the tensors trips over. -/
theorem loadTensors_panics_iff (dir : String) (root : Value) : Panics (loadTensors dir root m) ↔ Trips root m := by
  rw [panics_loadTensors hm]
  simp only [panics_readSizes, readSizes_eq_ok, panics_crossCheck, Trips, SizesTrip, HeadsTrip, CrossTrips,
    ← exists_readEmbedding]
  constructor
  · rintro ⟨base, hbase, ⟨n, hn, hemb, h⟩ | ⟨s, f, ⟨l, hr⟩, h⟩⟩
    · refine ⟨base, n, hbase, hn, hemb, ?_⟩
      rcases h with h | ⟨hgate, l, f, hf, h | ⟨hx, hh, h⟩⟩
      · exact .inl h
      · exact .inr ⟨hgate, l, f, hf, .inl h⟩
      · obtain ⟨haxes, hconv⟩ := exists_readLinear.mp hx
        exact .inr ⟨hgate, l, f, hf, .inr ⟨haxes, hconv, exists_readAttnHeads.mp hh, .inl h⟩⟩
    · obtain ⟨haxes, hconv⟩ := exists_readLinear.mp ⟨_, hr.linear⟩
      obtain ⟨hqkv, hz, -⟩ := readLinear_eq_ok.mp hr.linear
      have hheads := readAttnHeads_eq_ok.mp hr.heads
      have hconfig := readLinearHeads_eq_ok.mp hr.config
      have hproj : ∀ name ∈ projAxes base f, Axed m name := by
        simp only [projAxes, List.forall_mem_cons]
        exact ⟨⟨_, hr.qOut⟩, ⟨_, hr.kvOut⟩, by simp⟩
      refine ⟨base, s.numLayers, hbase, hr.numLayers, ⟨_, hr.embedding⟩, .inr ⟨⟨_, hr.intermediate⟩, l, f, hr.first,
        .inr ⟨haxes, hconv, exists_readAttnHeads.mp ⟨_, hr.heads⟩, .inr ⟨hproj, ⟨_, _, hqkv, hz, hr.valueDim_le⟩,
          exists_readLinearHeads.mp ⟨_, hr.config⟩, ?_⟩⟩⟩⟩
      rcases h with hkv | hk | ho
      · exact .inl (hkv ▸ hheads.2.2)
      · exact .inr (.inl (hk ▸ hconfig.1))
      · exact .inr (.inr ho)
  · rintro ⟨base, n, hbase, hn, hemb, h⟩
    refine ⟨base, hbase, ?_⟩
    rcases h with h | ⟨hgate, l, f, hf, h | ⟨haxes, hconv, hstates, h | ⟨hproj, hle, hstates', hcross⟩⟩⟩
    · exact .inl ⟨n, hn, hemb, .inl h⟩
    · exact .inl ⟨n, hn, hemb, .inr ⟨hgate, l, f, hf, .inl h⟩⟩
    · exact .inl ⟨n, hn, hemb, .inr ⟨hgate, l, f, hf, .inr ⟨exists_readLinear.mpr ⟨haxes, hconv⟩,
        exists_readAttnHeads.mpr hstates, h⟩⟩⟩
    · obtain ⟨p, hemb⟩ := hemb
      obtain ⟨i, hi⟩ := hgate
      obtain ⟨x, hx⟩ := exists_readLinear.mpr ⟨haxes, hconv⟩
      obtain ⟨hd, hh⟩ := exists_readAttnHeads.mpr hstates
      obtain ⟨c, hc⟩ := exists_readLinearHeads.mpr hstates'
      simp only [projAxes, List.forall_mem_cons] at hproj
      obtain ⟨⟨q, hq⟩, ⟨k, hk⟩, -⟩ := hproj
      obtain ⟨c', v', hc', hv', hle⟩ := hle
      obtain ⟨hqkv, hz, -⟩ := readLinear_eq_ok.mp hx
      have hle : x.valueDim ≤ x.convDim := by
        rw [Option.some.inj (hqkv.symm.trans hc'), Option.some.inj (hz.symm.trans hv')]
        exact hle
      refine .inr ⟨⟨p.1, p.2, i, n, x, hd, q, k, (x.convDim - x.valueDim) / 2, c⟩, f,
        ⟨l, hn, hemb, hi, hf, hx, hh, hq, hk, hle, rfl, hc⟩, ?_⟩
      rcases hcross with hkv | hk | ho
      · exact .inl (Option.some.inj ((readAttnHeads_eq_ok.mp hh).2.2.symm.trans hkv))
      · exact .inr (.inl (Option.some.inj ((readLinearHeads_eq_ok.mp hc).1.symm.trans hk)))
      · exact .inr (.inr ho)

end Rest

end Trips

/-! ### The load -/

theorem panics_load {json : SerdeJson} {bytes : List UInt8} {root : Value} {files : List ShardFile}
    {m : Safetensors.Model} (hroot : json.fromSlice bytes = .ok root) (hm : Model.open json files = .ok m) (dir : String) :
    Panics (load json dir (some (.ok bytes)) files) ↔ "qwen3_5".toList <+: (modelTypeOf root).toList ∧ Trips root m := by
  have hload : load json dir (some (.ok bytes)) files =
      if ¬ "qwen3_5".toList <+: (modelTypeOf root).toList then .error (.err (.modelType (modelTypeOf root)))
      else loadTensors dir root m := by
    simp only [load, orElse, ok_bind, Except.mapError, hroot, hm]
  rw [hload]
  split
  · rename_i htype
    exact iff_of_false (not_panics_err _) fun h => htype h.1
  · rename_i htype
    rw [loadTensors_panics_iff (backed_open hm), and_iff_right (not_not.mp htype)]

/-- **When a load panics.** A configuration that is parsed and tensors that
open: the load ends with a model or an error, unless the checks let it come to
a scalar whose first axis it reads, to an `o_proj` of less than two axes, or to
a head count of zero that it divides by. -/
theorem load_never_panics_iff {json : SerdeJson} {bytes : List UInt8} {root : Value} {files : List ShardFile}
    {m : Safetensors.Model} (hroot : json.fromSlice bytes = .ok root) (hm : Model.open json files = .ok m) (dir : String) :
    (∀ what, load json dir (some (.ok bytes)) files ≠ .error (.panic what)) ↔
      ¬ ("qwen3_5".toList <+: (modelTypeOf root).toList ∧ Trips root m) := by
  rw [← panics_load hroot hm dir, Panics, not_exists]

/-! ### A scalar -/

/-- An embedding of no tokens and a `gate_proj` without axes. -/
def scalarTable : Table := [("embed_tokens.weight", [0, 0]), ("layers.0.mlp.gate_proj.weight", [])]

def scalarConfig : String :=
  "\x7b\"layer_types\":[\"linear_attention\"],\"model_type\":\"qwen3_5\",\"num_hidden_layers\":1\x7d"

def scalarRoot : Value :=
  .object [("layer_types", .array [.string "linear_attention"]), ("model_type", .string "qwen3_5"),
    ("num_hidden_layers", .number (.posInt 1))]

theorem scalarTable_size : 8 + scalarTable.header.length + 4 ≤ maxValue := by decide +kernel

def scalarFile : ShardFile := scalarTable.file 4 scalarTable_size

def scalarSerde : SerdeJson := scalarTable.serde scalarConfig scalarRoot

theorem scalarTable_fits : scalarTable.Fits 4 where
  nodup := by decide
  named := by decide
  dims := by decide
  span := by decide

theorem scalarSerde_header : scalarSerde.fromSlice scalarTable.header = .ok (.object scalarTable.fields) :=
  serde_header (header_ne rfl rfl (by decide))

theorem scalarSerde_config : scalarSerde.fromSlice (Utf8.encode scalarConfig.toList) = .ok scalarRoot :=
  serde_config _ _ _

theorem trips_scalar {m : Safetensors.Model} (hm : scalarTable.Held m) : Trips scalarRoot m := by
  have hembed := entry_of_table hm (show scalarTable.lookup ("" ++ "embed_tokens.weight") = some [0, 0] by decide)
  have hgate := entry_of_table hm
    (show scalarTable.lookup (layerName "" 0 ++ "mlp.gate_proj.weight") = some [] by decide)
  refine ⟨"", 1, ?_, rfl, ⟨_, 0, 0, hembed, rfl⟩, .inl ⟨_, hgate, rfl⟩⟩
  exact detectPrefix_of_table hm scalarTable_fits.nodup (by decide)

/-- The load of this checkpoint panics. -/
theorem load_panics : ¬ ∀ (json : SerdeJson) (bytes : List UInt8) (root : Value) (files : List ShardFile)
    (m : Safetensors.Model) (dir : String), json.fromSlice bytes = .ok root → Model.open json files = .ok m →
    ∀ what, load json dir (some (.ok bytes)) files ≠ .error (.panic what) := by
  intro h
  obtain ⟨m, hm, hheld⟩ := open_table scalarTable_size scalarTable_fits scalarSerde_header
  obtain ⟨what, hwhat⟩ := (panics_load scalarSerde_config hm "model").mpr ⟨by decide, trips_scalar hheld⟩
  exact h _ _ _ _ m "model" scalarSerde_config hm what hwhat

theorem load_never_panics_iff_scalar : ∃ m, Model.open scalarSerde [scalarFile] = .ok m ∧
    ¬ ∀ what, load scalarSerde "model" (some (.ok (Utf8.encode scalarConfig.toList))) [scalarFile] ≠
      .error (.panic what) := by
  obtain ⟨m, hm, hheld⟩ := open_table scalarTable_size scalarTable_fits scalarSerde_header
  refine ⟨m, hm, fun h => ?_⟩
  exact (load_never_panics_iff scalarSerde_config hm "model").mp h ⟨by decide, trips_scalar hheld⟩

end Checkpoint
end Qwen
end Siphon
