/-
# The gated delta rule

The model of the `deltarule` crate: the recurrence of a linear-attention
layer. `forward` walks over the positions of each sequence and carries one
`[K, V]` state for each head; `forwardPreparedInto` normalises queries and
keys first and starts from a given state.

Key theorem: `recur_append`: on one sequence, running a chunk and then the
next one from the state it left is running the two at once.
-/
import Siphon.Qwen.Tensor

namespace Siphon
namespace Qwen
namespace Delta

open Rows Fallible

variable {F D : Type} (a : Arith F D)

/-- `Shape` -/
structure Shape where
  b : ℕ
  t : ℕ
  h : ℕ
  k : ℕ
  v : ℕ

/-- What the rule reads: `q`, `k` `[B, T, H, K]`, `v` `[B, T, H, V]`, `g`, `beta` `[B, T, H]`. -/
structure Operands (F : Type) where
  q : List F
  k : List F
  v : List F
  g : List F
  beta : List F

/-- What one head reads at one position. -/
structure Head (F : Type) where
  q : List F
  k : List F
  v : List F
  g : F
  beta : F

/-- The operands of row `j` of `[B, T, H]` (`idx4`). -/
def Operands.head (s : Shape) (o : Operands F) (j : ℕ) : Head F where
  q := row o.q s.k j
  k := row o.k s.k j
  v := row o.v s.v j
  g := at' a o.g j
  beta := at' a o.beta j

/-! ### Preparation -/

/-- One row of `l2norm_last_dim`. -/
def l2normRow (d : ℕ) (eps : F) (x : List F) : List F :=
  let ss := x.foldl (fun ss v => a.add ss (a.mul v v)) a.zero
  let inv := a.div a.one (a.sqrt (a.add ss eps))
  (List.range d).map fun i => a.mul (at' a x i) inv

/-- `prepare_qk` -/
def prepareQk (s : Shape) (o : Operands F) : Operands F :=
  let n := s.b * s.t * s.h
  let scale := a.div a.one (a.sqrt (a.ofNat s.k))
  { o with
    q := (mapRows (l2normRow a s.k a.millionth) s.k n o.q).map fun x => a.mul x scale
    k := mapRows (l2normRow a s.k a.millionth) s.k n o.k }

/-! ### The recurrence -/

/-- One head at one position: the next state `[K, V]` and the output. -/
def headStep (s : Shape) (state : List F) (x : Head F) : List F × List F :=
  let gT := a.exp x.g
  let decayed := state.map fun y => a.mul y gT
  let kvMem := (List.range s.v).map fun vi =>
    (List.range s.k).foldl (fun acc ki => a.add acc (a.mul (at' a decayed (ki * s.v + vi)) (at' a x.k ki))) a.zero
  let delta := (List.range s.v).map fun vi => a.mul (a.sub (at' a x.v vi) (at' a kvMem vi)) x.beta
  let next := rows s.k fun ki => (List.range s.v).map fun vi =>
    a.add (at' a decayed (ki * s.v + vi)) (a.mul (at' a x.k ki) (at' a delta vi))
  let out := (List.range s.v).map fun vi =>
    (List.range s.k).foldl (fun acc ki => a.add acc (a.mul (at' a next (ki * s.v + vi)) (at' a x.q ki))) a.zero
  (next, out)

/-- All heads at position `ti` of sequence `bi`. -/
def position (s : Shape) (o : Operands F) (bi : ℕ) (state : List F) (ti : ℕ) : List F × List F :=
  let head hi := headStep a s (row state (s.k * s.v) hi) (o.head a s ((bi * s.t + ti) * s.h + hi))
  (rows s.h fun hi => (head hi).1, rows s.h fun hi => (head hi).2)

/-- `validate_operands` -/
def validateOperands (s : Shape) (o : Operands F) : Except Fault Unit := do
  require (o.q.length = s.b * s.t * s.h * s.k) "delta rule: q length vs shape"
  require (o.k.length = s.b * s.t * s.h * s.k) "delta rule: k length vs shape"
  require (o.v.length = s.b * s.t * s.h * s.v) "delta rule: v length vs shape"
  require (o.g.length = s.b * s.t * s.h) "delta rule: g length vs shape"
  require (o.beta.length = s.b * s.t * s.h) "delta rule: beta length vs shape"

/-- `forward`: the outputs and the final state. -/
def forward (s : Shape) (o : Operands F) (state : List F) : Except Fault (List F × List F) := do
  validateOperands s o
  require (state.length = s.b * s.h * s.k * s.v) "delta rule: state length vs shape"
  let run bi := scan (position a s o bi) (row state (s.h * s.k * s.v) bi) s.t
  .ok (rows s.b fun bi => (run bi).2, rows s.b fun bi => (run bi).1)

/-- `forward_prepared_into` -/
def forwardPreparedInto (s : Shape) (o : Operands F) (state : List F) : Except Fault (List F × List F) := do
  validateOperands s o
  require (state.length = s.b * s.h * s.k * s.v) "delta rule: state length vs shape"
  forward a s (prepareQk a s o) state

/-- `forward_prepared` -/
def forwardPrepared (s : Shape) (o : Operands F) : Except Fault (List F × List F) :=
  forwardPreparedInto a s o (List.replicate (s.b * s.h * s.k * s.v) a.zero)

/-! ### Sizes -/

/-- The operands have the lengths of the shape. -/
structure Operands.Fits (s : Shape) (o : Operands F) : Prop where
  q : o.q.length = s.b * s.t * s.h * s.k
  k : o.k.length = s.b * s.t * s.h * s.k
  v : o.v.length = s.b * s.t * s.h * s.v
  g : o.g.length = s.b * s.t * s.h
  beta : o.beta.length = s.b * s.t * s.h

theorem validateOperands_ok {s : Shape} {o : Operands F} (h : o.Fits s) : validateOperands s o = .ok () := by
  unfold validateOperands
  rw [require_ok h.q, require_ok h.k, require_ok h.v, require_ok h.g, require_ok h.beta]
  rfl

theorem length_l2normRow (d : ℕ) (eps : F) (x : List F) : (l2normRow a d eps x).length = d := by
  unfold l2normRow
  rw [List.length_map, List.length_range]

theorem prepareQk_fits {s : Shape} {o : Operands F} (h : o.Fits s) : (prepareQk a s o).Fits s where
  q := by
    unfold prepareQk
    rw [List.length_map, length_mapRows o.q (length_l2normRow a s.k a.millionth)]
  k := length_mapRows o.k (length_l2normRow a s.k a.millionth)
  v := h.v
  g := h.g
  beta := h.beta

theorem length_headStep (s : Shape) (state : List F) (x : Head F) :
    (headStep a s state x).1.length = s.k * s.v ∧ (headStep a s state x).2.length = s.v := by
  unfold headStep
  refine ⟨length_rows fun ki _ => ?_, ?_⟩
  · rw [List.length_map, List.length_range]
  · rw [List.length_map, List.length_range]

theorem length_position (s : Shape) (o : Operands F) (bi : ℕ) (state : List F) (ti : ℕ) :
    (position a s o bi state ti).1.length = s.h * (s.k * s.v) ∧
      (position a s o bi state ti).2.length = s.h * s.v :=
  ⟨length_rows fun _ _ => (length_headStep a s _ _).1, length_rows fun _ _ => (length_headStep a s _ _).2⟩

/-! ### One sequence in chunks -/

/-- The shape of one sequence. -/
def one (h k v t : ℕ) : Shape := ⟨1, t, h, k, v⟩

/-- The rule on one sequence: the final state and the outputs. -/
def recur (h k v t : ℕ) (o : Operands F) (state : List F) : List F × List F :=
  scan (position a (one h k v t) (prepareQk a (one h k v t) o) 0) state t

/-- The operands of two chunks, one after the other. -/
def Operands.append (o o' : Operands F) : Operands F :=
  ⟨o.q ++ o'.q, o.k ++ o'.k, o.v ++ o'.v, o.g ++ o'.g, o.beta ++ o'.beta⟩

theorem forwardPreparedInto_one {h k v t : ℕ} {o : Operands F} {state : List F} (ho : o.Fits (one h k v t))
    (hst : state.length = h * k * v) :
    forwardPreparedInto a (one h k v t) o state = .ok ((recur a h k v t o state).2, (recur a h k v t o state).1) := by
  have hlen : state.length = (one h k v t).b * (one h k v t).h * (one h k v t).k * (one h k v t).v := by
    rw [hst]
    simp only [one, Nat.one_mul]
  unfold forwardPreparedInto forward
  rw [validateOperands_ok ho, validateOperands_ok (prepareQk_fits a ho), require_ok hlen]
  simp only [ok_bind, one, rows_one, row_self hst]
  rfl

theorem length_recur (h k v t : ℕ) (o : Operands F) (state : List F) : (recur a h k v t o state).2.length = t * (h * v) :=
  length_scan (fun _ _ => (length_position a _ _ _ _ _).2) _ _

theorem length_recur_state {h k v t : ℕ} {o : Operands F} {state : List F} (hst : state.length = h * k * v) :
    (recur a h k v t o state).1.length = h * k * v := by
  have hkeep : ∀ st ti, (position a (one h k v t) (prepareQk a (one h k v t) o) 0 st ti).1.length = h * k * v := by
    intro st ti
    rw [(length_position a _ _ _ st ti).1, Nat.mul_assoc]
    rfl
  exact scan_state (P := fun st : List F => st.length = h * k * v) hkeep hst t

section Chunks

variable {h k v t t' : ℕ} {o o' : Operands F} (ho : o.Fits (one h k v t))
include ho

theorem prepareQk_append : prepareQk a (one h k v (t + t')) (o.append o') =
    (prepareQk a (one h k v t) o).append (prepareQk a (one h k v t') o') := by
  have hn : 1 * (t + t') * h = 1 * t * h + 1 * t' * h := by rw [Nat.mul_add, Nat.add_mul]
  have hq : o.q.length = 1 * t * h * k := ho.q
  have hk : o.k.length = 1 * t * h * k := ho.k
  unfold prepareQk Operands.append
  simp only [one, hn, mapRows_append hq, mapRows_append hk, List.map_append]

theorem head_append_left {j : ℕ} (hj : j < t * h) :
    (o.append o').head a (one h k v (t + t')) j = o.head a (one h k v t) j := by
  have hth : 1 * t * h = t * h := by rw [Nat.one_mul]
  have hq : o.q.length = t * h * k := hth ▸ ho.q
  have hk : o.k.length = t * h * k := hth ▸ ho.k
  have hv : o.v.length = t * h * v := hth ▸ ho.v
  have hg : j < o.g.length := by rw [show o.g.length = t * h from hth ▸ ho.g]; exact hj
  have hb : j < o.beta.length := by rw [show o.beta.length = t * h from hth ▸ ho.beta]; exact hj
  simp only [Operands.head, Operands.append, one, row_append_left hq hj, row_append_left hk hj,
    row_append_left hv hj, at'_append_left a _ hg, at'_append_left a _ hb]

theorem head_append_right (j : ℕ) :
    (o.append o').head a (one h k v (t + t')) (t * h + j) = o'.head a (one h k v t') j := by
  have hth : 1 * t * h = t * h := by rw [Nat.one_mul]
  have hq : o.q.length = t * h * k := hth ▸ ho.q
  have hk : o.k.length = t * h * k := hth ▸ ho.k
  have hv : o.v.length = t * h * v := hth ▸ ho.v
  have hg : o.g.length = t * h := hth ▸ ho.g
  have hb : o.beta.length = t * h := hth ▸ ho.beta
  simp only [Operands.head, Operands.append, one, row_append_right hq, row_append_right hk, row_append_right hv,
    at'_append_right a _ _ hg, at'_append_right a _ _ hb]

theorem position_append_left {ti : ℕ} (hti : ti < t) (state : List F) :
    position a (one h k v (t + t')) (o.append o') 0 state ti = position a (one h k v t) o 0 state ti := by
  have hhead : ∀ hi < h, (o.append o').head a (one h k v (t + t')) ((0 * (t + t') + ti) * h + hi) =
      o.head a (one h k v t) ((0 * t + ti) * h + hi) := by
    intro hi hhi
    simp only [Nat.zero_mul, Nat.zero_add]
    exact head_append_left a ho (index_lt hti hhi)
  unfold position
  refine Prod.ext (rows_congr fun hi hhi => ?_) (rows_congr fun hi hhi => ?_)
  · exact congrArg (fun x => (headStep a _ _ x).1) (hhead hi hhi)
  · exact congrArg (fun x => (headStep a _ _ x).2) (hhead hi hhi)

theorem position_append_right (state : List F) (ti : ℕ) :
    position a (one h k v (t + t')) (o.append o') 0 state (t + ti) = position a (one h k v t') o' 0 state ti := by
  have hhead : ∀ hi, (o.append o').head a (one h k v (t + t')) ((0 * (t + t') + (t + ti)) * h + hi) =
      o'.head a (one h k v t') ((0 * t' + ti) * h + hi) := by
    intro hi
    simp only [Nat.zero_mul, Nat.zero_add]
    rw [Nat.add_mul, Nat.add_assoc]
    exact head_append_right a ho _
  unfold position
  refine Prod.ext (rows_congr fun hi _ => ?_) (rows_congr fun hi _ => ?_)
  · exact congrArg (fun x => (headStep a _ _ x).1) (hhead hi)
  · exact congrArg (fun x => (headStep a _ _ x).2) (hhead hi)

/-- **The recurrence is continued, not restarted.** -/
theorem recur_append (state : List F) : recur a h k v (t + t') (o.append o') state =
    ((recur a h k v t' o' (recur a h k v t o state).1).1,
      (recur a h k v t o state).2 ++ (recur a h k v t' o' (recur a h k v t o state).1).2) := by
  have hp := prepareQk_fits a ho
  unfold recur
  rw [scan_add, prepareQk_append a ho, scan_congr fun ti hti st => position_append_left a hp hti st,
    scan_congr fun ti _ st => position_append_right a hp st ti]

end Chunks

end Delta
end Qwen
end Siphon
