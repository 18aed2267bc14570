/-
# The split kernel, lane by lane

`wkv7_split_kernel` has 128 threads in a block and two blocks for a head: four
lanes share a row of the state, each with a quarter of it in its registers,
and exchange partial sums with the lanes next to it. `wkv7_serial_kernel` has
a thread for each row. The threads of either may run in any order, in one
buffer or in two, as long as a thread stores after the lanes it exchanges with
have loaded.

Key definitions: `blockStep`, `wkv7SplitLaunch`, `wkv7SerialLaunch`.
Key theorem: `wkv7SplitLaunch_eq_serial`: in every order, both launches compute the recurrence.
-/
import Mathlib.Algebra.Field.Rat
import Siphon.Lib.Schedule
import Siphon.Rwkv.Wkv

namespace Siphon
namespace Rwkv

open Finset Launch Fallible Schedule

variable {F : Type} [Field F]

/-! ### The kernels -/

/-- The row of the head that thread `tid` of block `bid` works on. -/
def laneRow (bid tid : ℕ) : ℕ := bid % 2 * 32 + tid / 4

/-- `j0`: where the lane's quarter of the row starts. -/
def laneFrom (tid : ℕ) : ℕ := tid % 4 * 16

/-- What a block shares for one token, and each thread's own `v`. -/
structure BlockShared (F : Type) where
  r : List F
  swe : List F
  k : List F
  a : List F
  b : List F
  v : List F

/-- The loads of a block for token `t`; `exp` is taken once for the block. -/
def loadBlock (exp : F → F) (x : WkvInputs F) (H bid t : ℕ) : Option (BlockShared F) := do
  let base := t * (H * 64) + bid / 2 * 64
  let r ← (List.range 64).mapM fun i => x.r[base + i]?
  let w ← (List.range 64).mapM fun i => x.w[base + i]?
  let k ← (List.range 64).mapM fun i => x.k[base + i]?
  let a ← (List.range 64).mapM fun i => x.a[base + i]?
  let b ← (List.range 64).mapM fun i => x.b[base + i]?
  let v ← (List.range 128).mapM fun tid => x.v[base + laneRow bid tid]?
  some { r := r, swe := tab 64 fun i => exp (entry w i), k := k, a := a, b := b, v := v }

/-- The body of the token loop, for the registers `st` of a block: a lane's sums go to the lanes across. -/
def blockStep (st : ℕ → List F) (s : BlockShared F) : (ℕ → List F) × (ℕ → F) :=
  let dot tid := ∑ i ∈ range 16, entry s.a (laneFrom tid + i) * entry (st tid) i
  let sdot := Reduce.exchange (Reduce.exchange dot 1) 2
  let next tid := tab 16 fun i =>
    let j := laneFrom tid + i
    entry (st tid) i * entry s.swe j + entry s.k j * entry s.v tid + sdot tid * entry s.b j
  let o tid := ∑ i ∈ range 16, entry (next tid) i * entry s.r (laneFrom tid + i)
  (next, Reduce.exchange (Reduce.exchange o 1) 2)

/-- The quarter of a row that thread `p.2` of block `p.1` starts with. -/
def loadLane (p : ℕ × ℕ) : Option (Cells F) → Option (List F)
  | none => some (tab 16 fun _ => 0)
  | some m => (List.range 16).mapM fun i => load m (p.1 / 2 * 64 * 64 + laneRow p.1 p.2 * 64 + laneFrom p.2 + i)

/-- `wkv7_split_kernel` after the loads of the state: what the thread stores to `s_out`, if it is there, and to `out`. -/
def splitWrite (exp : F → F) (x : WkvInputs F) (T H : ℕ) (sOut : Bool) (regs : ℕ × ℕ → List F) (p : ℕ × ℕ) :
    Option (List (ℕ × F) × List (ℕ × F)) := do
  let tokens ← (List.range T).mapM (loadBlock exp x H p.1)
  let res := Mealy.run blockStep (fun tid => regs (p.1, tid)) tokens
  let outs := res.2.map fun o => o p.2
  some (
    if sOut then
      (List.range 16).map fun i =>
        (p.1 / 2 * 64 * 64 + laneRow p.1 p.2 * 64 + laneFrom p.2 + i, entry (res.1 p.2) i)
    else [],
    if p.2 % 4 = 0 then (List.range T).map fun t => (t * (H * 64) + p.1 / 2 * 64 + laneRow p.1 p.2, entry outs t)
    else [])

/-- `wkv7_serial_kernel` after the loads of the state. -/
def serialWrite (exp : F → F) (x : WkvInputs F) (T H : ℕ) (sOut : Bool) (regs : ℕ × ℕ → List F) (p : ℕ × ℕ) :
    Option (List (ℕ × F) × List (ℕ × F)) := do
  let tokens ← (List.range T).mapM (loadShared x H p)
  let res := Mealy.run (serialStep exp) (regs p) tokens
  some (
    if sOut then (List.range 64).map fun j => (p.1 * 64 * 64 + p.2 * 64 + j, entry res.1 j) else [],
    (List.range T).map fun t => (t * (H * 64) + p.1 * 64 + p.2, entry res.2 t))

/-! ### The launches -/

/-- A launch whose threads run in the order `evs`: what `out` and `s_out` hold then. `junk` is what the registers hold
before. -/
def scheduled (read : ℕ × ℕ → Option (Cells F) → Option (List F))
    (write : Bool → (ℕ × ℕ → List F) → ℕ × ℕ → Option (List (ℕ × F) × List (ℕ × F))) (evs : List (Event (ℕ × ℕ)))
    (junk : ℕ × ℕ → List F) (out : Cells F) : WkvState F → Option (List F × Option (List F))
  | .separate sIn none => do
    let s ← run (fun p _ => read p (sIn.map fun s => s.map some)) (write false) evs ⟨[], out, junk⟩
    some (← contents s.out, none)
  | .separate sIn (some sOut) => do
    let s ← run (fun p _ => read p (sIn.map fun s => s.map some)) (write true) evs ⟨sOut.map some, out, junk⟩
    some (← contents s.out, some (← contents s.mem))
  | .inPlace s => do
    let s ← run (fun p m => read p (some m)) (write true) evs ⟨s.map some, out, junk⟩
    some (← contents s.out, some (← contents s.mem))

/-- `wkv7_split_launch`: two blocks of 128 threads for each head. -/
def splitLanes (H : ℕ) : List (ℕ × ℕ) := List.range (H * 2) ×ˢ List.range 128

/-- The lanes that a thread has exchanged with before it stores; with no token there are none. -/
def splitPeers (T : ℕ) (p : ℕ × ℕ) : List (ℕ × ℕ) :=
  if T = 0 then [p] else (List.range 4).map fun l => (p.1, p.2 / 4 * 4 + l)

def wkv7SplitLaunch (exp : F → F) (evs : List (Event (ℕ × ℕ))) (junk : ℕ × ℕ → List F) (x : WkvInputs F) (T H : ℕ)
    (out : Cells F) (s : WkvState F) : Option (List F × Option (List F)) :=
  scheduled loadLane (splitWrite exp x T H) evs junk out s

def wkv7SerialLaunch (exp : F → F) (evs : List (Event (ℕ × ℕ))) (junk : ℕ × ℕ → List F) (x : WkvInputs F) (T H : ℕ)
    (out : Cells F) (s : WkvState F) : Option (List F × Option (List F)) :=
  scheduled loadRow (serialWrite exp x T H) evs junk out s

/-! ### Four lanes make a row -/

/-- Quarter `js` of a row. -/
def quarter (row : List F) (js : ℕ) : List F := tab 16 fun i => entry row (js * 16 + i)

/-- The lanes across are lanes of the same row. -/
theorem lane_xor {q l m : ℕ} (hl : l < 4) (hm : m < 4) : (q * 4 + l) ^^^ m = q * 4 + (l ^^^ m) := by
  have hlm : l ^^^ m < 4 := Nat.xor_lt_two_pow (n := 2) hl hm
  have hdiv : ((q * 4 + l) ^^^ m) / 2 ^ 2 = (q * 4 + l) / 2 ^ 2 ^^^ m / 2 ^ 2 := Nat.xor_div_two_pow
  have hmod : ((q * 4 + l) ^^^ m) % 2 ^ 2 = (q * 4 + l) % 2 ^ 2 ^^^ m % 2 ^ 2 := Nat.xor_mod_two_pow
  have h1 : (q * 4 + l) / 2 ^ 2 = q := by omega
  have h2 : (q * 4 + l) % 2 ^ 2 = l := by omega
  have h3 : m / 2 ^ 2 = 0 := by omega
  have h4 : m % 2 ^ 2 = m := by omega
  rw [h1, h3, Nat.xor_zero] at hdiv
  rw [h2, h4] at hmod
  omega

/-- After two exchanges each lane of a row has the sum of the four. -/
theorem exchange_lanes (f : ℕ → F) {q l : ℕ} (hl : l < 4) :
    Reduce.exchange (Reduce.exchange f 1) 2 (q * 4 + l) = ∑ i ∈ range 4, f (q * 4 + i) := by
  have hin : ∀ l < 4, Reduce.exchange f 1 (q * 4 + l) = Reduce.exchange (fun i => f (q * 4 + i)) 1 l := by
    intro l hl
    unfold Reduce.exchange
    rw [lane_xor hl (by decide)]
  have hl2 : l ^^^ 2 < 4 := Nat.xor_lt_two_pow (n := 2) hl (by decide)
  rw [← Reduce.butterfly_eq (fun i => f (q * 4 + i)) hl]
  show Reduce.exchange f 1 (q * 4 + l) + Reduce.exchange f 1 ((q * 4 + l) ^^^ 2) = _
  rw [lane_xor hl (by decide), hin l hl, hin _ hl2]
  rfl

/-- The registers of the lanes of row `q` of a block are the quarters of `row`. -/
def HoldsRow (q : ℕ) (st : ℕ → List F) (row : List F) : Prop := ∀ l < 4, st (q * 4 + l) = quarter row l

/-- What the block shares is what the thread of row `q` has. -/
structure Shares (exp : F → F) (q : ℕ) (x : BlockShared F) (s : Shared F) : Prop where
  r : x.r = s.r
  swe : x.swe = tab 64 fun j => exp (entry s.w j)
  k : x.k = s.k
  a : x.a = s.a
  b : x.b = s.b
  v : ∀ l < 4, entry x.v (q * 4 + l) = s.v

/-- One token: the lanes of a row hold the row's next state, and each has the row's output. -/
theorem blockStep_row {exp : F → F} {q : ℕ} {st : ℕ → List F} {row : List F} {b : BlockShared F} {s : Shared F}
    (hst : HoldsRow q st row) (hb : Shares exp q b s) :
    HoldsRow q (blockStep st b).1 (serialStep exp row s).1 ∧
      ∀ l < 4, (blockStep st b).2 (q * 4 + l) = (serialStep exp row s).2 := by
  have hfrom : ∀ l < 4, laneFrom (q * 4 + l) = l * 16 := fun l hl => by unfold laneFrom; omega
  -- the sum of the quarters' sums
  have hquarters : ∀ (f : ℕ → F) (g : ℕ → F), (∀ l < 4, ∀ i < 16, f (l * 16 + i) = g (l * 16 + i)) →
      ∑ l ∈ range 4, ∑ i ∈ range 16, f (l * 16 + i) = ∑ j ∈ range 64, g j := by
    intro f g hfg
    have hblocks := Reduce.sum_blocks g 0 16 4
    simp only [Nat.zero_add] at hblocks
    rw [← range_eq_Ico] at hblocks
    rw [← hblocks]
    refine sum_congr rfl fun l hl => sum_congr rfl fun i hi => ?_
    exact hfg l (mem_range.mp hl) i (mem_range.mp hi)
  have hdot : ∀ l < 4, Reduce.exchange (Reduce.exchange (fun tid =>
      ∑ i ∈ range 16, entry b.a (laneFrom tid + i) * entry (st tid) i) 1) 2 (q * 4 + l) =
        ∑ j ∈ range 64, entry s.a j * entry row j := by
    intro l hl
    rw [exchange_lanes _ hl, ← hquarters (fun j => entry s.a j * entry row j) _ fun _ _ _ _ => rfl]
    refine sum_congr rfl fun l hl => sum_congr rfl fun i hi => ?_
    have hl := mem_range.mp hl
    rw [hfrom l hl, hst l hl, hb.a, quarter, entry_tab _ (mem_range.mp hi)]
  have hnext : HoldsRow q (blockStep st b).1 (serialStep exp row s).1 := by
    intro l hl
    refine tab_congr fun i hi => ?_
    have hj : l * 16 + i < 64 := by omega
    dsimp only
    rw [hdot l hl, hfrom l hl, hst l hl, quarter, entry_tab _ hi, hb.swe, entry_tab _ hj, hb.k, hb.b, hb.v l hl,
      serialStep, entry_tab _ hj]
  refine ⟨hnext, fun l hl => ?_⟩
  have hout : (blockStep st b).2 (q * 4 + l) = Reduce.exchange (Reduce.exchange (fun tid =>
      ∑ i ∈ range 16, entry ((blockStep st b).1 tid) i * entry b.r (laneFrom tid + i)) 1) 2 (q * 4 + l) := rfl
  have hserial : (serialStep exp row s).2 = ∑ j ∈ range 64, entry (serialStep exp row s).1 j * entry s.r j := rfl
  rw [hout, exchange_lanes _ hl, hserial,
    ← hquarters (fun j => entry (serialStep exp row s).1 j * entry s.r j) _ fun _ _ _ _ => rfl]
  refine sum_congr rfl fun l hl => sum_congr rfl fun i hi => ?_
  have hl := mem_range.mp hl
  rw [hfrom l hl, hnext l hl, hb.r, quarter, entry_tab _ (mem_range.mp hi)]

/-- All tokens. -/
theorem run_blockStep {exp : F → F} {q : ℕ} {α : Type} {f : α → BlockShared F} {g : α → Shared F} :
    ∀ (toks : List α) {st : ℕ → List F} {row : List F}, (∀ x ∈ toks, Shares exp q (f x) (g x)) → HoldsRow q st row →
      HoldsRow q (Mealy.run blockStep st (toks.map f)).1 (Mealy.run (serialStep exp) row (toks.map g)).1 ∧
        ∀ l < 4, ((Mealy.run blockStep st (toks.map f)).2.map fun o => o (q * 4 + l)) =
          (Mealy.run (serialStep exp) row (toks.map g)).2
  | [], _, _, _, hst => ⟨hst, fun _ _ => rfl⟩
  | x :: toks, st, row, hs, hst => by
    obtain ⟨hx, hs⟩ := List.forall_mem_cons.mp hs
    obtain ⟨hnext, hout⟩ := blockStep_row hst hx
    obtain ⟨hfin, houts⟩ := run_blockStep toks hs hnext
    refine ⟨hfin, fun l hl => ?_⟩
    simp only [List.map_cons, Mealy.run_cons, hout l hl, houts l hl]

/-! ### The loads and the stores of a lane -/

/-- What a block shares for a token of the whole width. -/
def blockShared (exp : F → F) (bid : ℕ) (x : WkvInputs F) : BlockShared F where
  r := tab 64 fun i => entry x.r (bid / 2 * 64 + i)
  swe := tab 64 fun i => exp (entry x.w (bid / 2 * 64 + i))
  k := tab 64 fun i => entry x.k (bid / 2 * 64 + i)
  a := tab 64 fun i => entry x.a (bid / 2 * 64 + i)
  b := tab 64 fun i => entry x.b (bid / 2 * 64 + i)
  v := tab 128 fun tid => entry x.v (bid / 2 * 64 + laneRow bid tid)

theorem laneRow_lt (bid : ℕ) {tid : ℕ} (ht : tid < 128) : laneRow bid tid < 64 := by
  unfold laneRow
  omega

/-- The row of the state that a lane is of. -/
theorem laneRow_lane {bid q l : ℕ} (hl : l < 4) : laneRow bid (q * 4 + l) = bid % 2 * 32 + q := by
  unfold laneRow
  omega

theorem blockShared_shares (exp : F → F) {bid q : ℕ} (hq : q < 32) (x : WkvInputs F) :
    Shares exp q (blockShared exp bid x) (rowShared x (bid / 2 * 64 + (bid % 2 * 32 + q))) := by
  have hdiv : (bid / 2 * 64 + (bid % 2 * 32 + q)) / 64 = bid / 2 := by omega
  unfold rowShared
  rw [hdiv]
  refine ⟨rfl, ?_, rfl, rfl, rfl, fun l hl => ?_⟩
  · refine tab_congr fun j hj => ?_
    dsimp only
    rw [entry_tab _ hj]
  · unfold blockShared
    dsimp only
    rw [entry_tab _ (by omega), laneRow_lane hl]

section Loads

variable {H : ℕ} {toks : List (WkvInputs F)} (hw : ∀ x ∈ toks, x.Wide (H * 64))
include hw

theorem loadBlock_eq (exp : F → F) {bid t : ℕ} {x : WkvInputs F} (hx : toks[t]? = some x) (hb : bid < H * 2) :
    loadBlock exp (WkvInputs.flat toks) H bid t = some (blockShared exp bid x) := by
  have hblock : ∀ (f : WkvInputs F → List F), (∀ x : WkvInputs F, x.Wide (H * 64) → (f x).length = H * 64) →
      ((List.range 64).mapM fun i => (toks.map f).flatten[t * (H * 64) + bid / 2 * 64 + i]?) =
        some (tab 64 fun i => entry (f x) (bid / 2 * 64 + i)) := by
    intro f hf
    refine mapM_eq_map _ fun i hi => ?_
    have hi := List.mem_range.mp hi
    rw [Nat.add_assoc, load_tokens hw hf hx (by omega)]
  have hv : ((List.range 128).mapM fun tid =>
      (toks.map (·.v)).flatten[t * (H * 64) + bid / 2 * 64 + laneRow bid tid]?) =
        some (tab 128 fun tid => entry x.v (bid / 2 * 64 + laneRow bid tid)) := by
    refine mapM_eq_map _ fun tid ht => ?_
    have hrow := laneRow_lt bid (List.mem_range.mp ht)
    rw [Nat.add_assoc, load_tokens hw (fun x hx => hx.2.2.2.1) hx (by omega)]
  unfold loadBlock WkvInputs.flat
  dsimp only
  rw [hblock (·.r) fun x hx => hx.1, hblock (·.w) fun x hx => hx.2.1, hblock (·.k) fun x hx => hx.2.2.1,
    hblock (·.a) fun x hx => hx.2.2.2.2.1, hblock (·.b) fun x hx => hx.2.2.2.2.2, hv]
  refine congrArg some ?_
  rw [blockShared, tab_congr fun i hi => congrArg exp (entry_tab _ hi)]

/-- What a lane stores of the last state and of the outputs. -/
def laneStores (H : ℕ) (fin : List F × List (List F)) (p : ℕ × ℕ) : List (ℕ × F) × List (ℕ × F) :=
  ((List.range 16).map fun i =>
      ((p.1 / 2 * 64 + laneRow p.1 p.2) * 64 + (laneFrom p.2 + i),
        entry fin.1 ((p.1 / 2 * 64 + laneRow p.1 p.2) * 64 + (laneFrom p.2 + i))),
    if p.2 % 4 = 0 then
      (List.range fin.2.length).map fun t => (t * (H * 64) + (p.1 / 2 * 64 + laneRow p.1 p.2),
        entry fin.2.flatten (t * (H * 64) + (p.1 / 2 * 64 + laneRow p.1 p.2)))
    else [])

/-- The quarter of the state that a lane holds. -/
def lanePart (S : List F) (p : ℕ × ℕ) : List F := quarter (stateRow S (p.1 / 2 * 64 + laneRow p.1 p.2)) (p.2 % 4)

omit hw in
theorem loadLane_zero {p : ℕ × ℕ} (hp : p ∈ splitLanes H) :
    loadLane p none = some (lanePart (tab (H * 64 * 64) fun _ => (0 : F)) p) := by
  obtain ⟨h1, h2⟩ := List.mem_product.mp hp
  have h1 := List.mem_range.mp h1
  have hrow := laneRow_lt p.1 (List.mem_range.mp h2)
  have hl : p.2 % 4 < 4 := Nat.mod_lt _ (by decide)
  unfold loadLane lanePart quarter
  refine congrArg some (tab_congr fun i hi => ?_)
  rw [stateRow, entry_tab _ (by omega), entry_tab _ (by omega)]

omit hw in
theorem loadLane_eq {S : List F} (hS : S.length = H * 64 * 64) {p : ℕ × ℕ} (hp : p ∈ splitLanes H) :
    loadLane p (some (S.map some)) = some (lanePart S p) := by
  obtain ⟨h1, h2⟩ := List.mem_product.mp hp
  have h1 := List.mem_range.mp h1
  have hrow := laneRow_lt p.1 (List.mem_range.mp h2)
  unfold loadLane lanePart quarter tab
  refine mapM_eq_map _ fun i hi => ?_
  have hi := List.mem_range.mp hi
  have hfrom : laneFrom p.2 = p.2 % 4 * 16 := rfl
  have hj : p.2 % 4 * 16 + i < 64 := by omega
  rw [load_map_some, getElem?_entry (by omega), stateRow, entry_tab _ hj, hfrom, Nat.add_mul, Nat.add_assoc _ _ i]

/-- A lane stores its part of the recurrence, once the lanes of its row hold theirs. -/
theorem splitWrite_eq (exp : F → F) {S : List F} (sOut : Bool) {regs : ℕ × ℕ → List F} {p : ℕ × ℕ}
    (hp : p ∈ splitLanes H) (hregs : ∀ u ∈ splitPeers toks.length p, regs u = lanePart S u) :
    splitWrite exp (WkvInputs.flat toks) toks.length H sOut regs p =
      some (if sOut then (laneStores H (Mealy.run (wkvStep exp (H * 64)) S toks) p).1 else [],
        (laneStores H (Mealy.run (wkvStep exp (H * 64)) S toks) p).2) := by
  obtain ⟨h1, h2⟩ := List.mem_product.mp hp
  have h1 := List.mem_range.mp h1
  have h2 := List.mem_range.mp h2
  have hl : p.2 % 4 < 4 := Nat.mod_lt _ (by decide)
  have hlane : p.2 / 4 * 4 + p.2 % 4 = p.2 := by omega
  have hrow : laneRow p.1 p.2 = p.1 % 2 * 32 + p.2 / 4 := rfl
  have hc : p.1 / 2 * 64 + laneRow p.1 p.2 < H * 64 := by
    have := laneRow_lt p.1 h2
    omega
  have htoks : (List.range toks.length).mapM (loadBlock exp (WkvInputs.flat toks) H p.1) =
      some (toks.map (blockShared exp p.1)) := mapM_range_eq_map toks fun t x hx => loadBlock_eq hw exp hx h1
  -- the last registers of the lane, and its outputs
  have hres : (Mealy.run blockStep (fun tid => regs (p.1, tid)) (toks.map (blockShared exp p.1))).1 p.2 =
        quarter (stateRow (Mealy.run (wkvStep exp (H * 64)) S toks).1 (p.1 / 2 * 64 + laneRow p.1 p.2)) (p.2 % 4) ∧
      ((Mealy.run blockStep (fun tid => regs (p.1, tid)) (toks.map (blockShared exp p.1))).2.map fun o => o p.2) =
        (Mealy.run (wkvStep exp (H * 64)) S toks).2.map fun o => entry o (p.1 / 2 * 64 + laneRow p.1 p.2) := by
    cases toks with
    | nil =>
      refine ⟨?_, rfl⟩
      exact hregs p (by simp [splitPeers])
    | cons x toks =>
      have hhold : HoldsRow (p.2 / 4) (fun tid => regs (p.1, tid)) (stateRow S (p.1 / 2 * 64 + laneRow p.1 p.2)) := by
        intro l hl
        have hmem : (p.1, p.2 / 4 * 4 + l) ∈ splitPeers (x :: toks).length p :=
          List.mem_map.mpr ⟨l, List.mem_range.mpr hl, rfl⟩
        have hmod : (p.2 / 4 * 4 + l) % 4 = l := by omega
        dsimp only
        rw [hregs _ hmem, lanePart, laneRow_lane hl, hmod, hrow]
      have hshares : ∀ y ∈ x :: toks, Shares exp (p.2 / 4) (blockShared exp p.1 y)
          (rowShared y (p.1 / 2 * 64 + laneRow p.1 p.2)) := fun y _ => blockShared_shares exp (by omega) y
      obtain ⟨hfin, houts⟩ := run_blockStep (x :: toks) hshares hhold
      rw [run_serialStep exp hc] at hfin houts
      have h1 := hfin _ hl
      have h2 := houts _ hl
      rw [hlane] at h1 h2
      exact ⟨h1, h2⟩
  have hwidth := Mealy.run_output (f := wkvStep exp (H * 64)) (P := fun _ => True) (Q := fun o => o.length = H * 64)
    (fun _ _ _ => trivial) (fun S x _ => (length_wkvStep exp (H * 64) S x).2) (s := S) toks trivial
  unfold splitWrite laneStores
  rw [htoks, Mealy.length_run]
  simp only [Option.bind_eq_bind, Option.bind_some, hres.1, hres.2]
  generalize Mealy.run (wkvStep exp (H * 64)) S toks = fin at hwidth ⊢
  refine congrArg some (congrArg₂ Prod.mk ?_ ?_)
  · refine congrArg (fun l => if sOut then l else []) (List.map_congr_left fun i hi => ?_)
    have hi := List.mem_range.mp hi
    have hfrom : laneFrom p.2 = p.2 % 4 * 16 := rfl
    rw [quarter, entry_tab _ hi, stateRow, entry_tab _ (by omega), hfrom, Nat.add_mul, Nat.add_assoc _ _ i]
  · refine congrArg (fun l => if p.2 % 4 = 0 then l else []) (List.map_congr_left fun t _ => ?_)
    rw [entry_flatten hwidth hc, Nat.add_assoc]

end Loads

/-! ### Every order computes the recurrence -/

/-- Every entry of `l` is stored by one of the threads, and all that they store is what `l` has there. -/
def Written (threads : List (ℕ × ℕ)) (ws : ℕ × ℕ → List (ℕ × F)) (l : List F) : Prop :=
  (∀ i < l.length, ∃ p ∈ threads, ∃ w ∈ ws p, w.1 = i) ∧ ∀ p ∈ threads, ∀ w ∈ ws p, l[w.1]? = some w.2

/-- What a launch needs of a kernel: each thread of it holds its part of the state, keeps to it, and stores its part of
the recurrence; and the parts of all threads are the whole. -/
structure Kernel (exp : F → F) (toks : List (WkvInputs F)) (H : ℕ) (threads : List (ℕ × ℕ))
    (peers : ℕ × ℕ → List (ℕ × ℕ)) (read : ℕ × ℕ → Option (Cells F) → Option (List F))
    (write : Bool → (ℕ × ℕ → List F) → ℕ × ℕ → Option (List (ℕ × F) × List (ℕ × F))) where
  part : List F → ℕ × ℕ → List F
  owns : ℕ × ℕ → ℕ → Prop
  writes : List F × List (List F) → ℕ × ℕ → List (ℕ × F) × List (ℕ × F)
  nodup : threads.Nodup
  self : ∀ p ∈ threads, p ∈ peers p
  disjoint : ∀ p ∈ threads, ∀ q ∈ threads, p ≠ q → ∀ i, owns p i → ¬ owns q i
  local_ : ∀ p m m', (∀ i, owns p i → load m i = load m' i) → read p (some m) = read p (some m')
  zero : ∀ p ∈ threads, read p none = some (part (tab (H * 64 * 64) fun _ => 0) p)
  loads : ∀ S, S.length = H * 64 * 64 → ∀ p ∈ threads, read p (some (S.map some)) = some (part S p)
  stores : ∀ S sOut regs, ∀ p ∈ threads, (∀ u ∈ peers p, regs u = part S u) → write sOut regs p =
    some (if sOut then (writes (Mealy.run (wkvStep exp (H * 64)) S toks) p).1 else [],
      (writes (Mealy.run (wkvStep exp (H * 64)) S toks) p).2)
  state : ∀ fin, ∀ p ∈ threads, ∀ w ∈ (writes fin p).1, owns p w.1 ∧ w.1 < H * 64 * 64 ∧ w.2 = entry fin.1 w.1
  state_cover : ∀ fin, ∀ i < H * 64 * 64, ∃ p ∈ threads, ∃ w ∈ (writes fin p).1, w.1 = i
  out : ∀ fin, ∀ p ∈ threads, ∀ w ∈ (writes fin p).2,
    w.1 < fin.2.length * (H * 64) ∧ w.2 = entry fin.2.flatten w.1
  out_cover : ∀ fin, ∀ i < fin.2.length * (H * 64), ∃ p ∈ threads, ∃ w ∈ (writes fin p).2, w.1 = i

namespace Kernel

variable {exp : F → F} {toks : List (WkvInputs F)} {H : ℕ} {threads : List (ℕ × ℕ)}
  {peers : ℕ × ℕ → List (ℕ × ℕ)} {read : ℕ × ℕ → Option (Cells F) → Option (List F)}
  {write : Bool → (ℕ × ℕ → List F) → ℕ × ℕ → Option (List (ℕ × F) × List (ℕ × F))}

/-- One run of a kernel: the state buffer, where there is one to store to, and the output. -/
theorem run_eq (k : Kernel exp toks H threads peers read write) {evs : List (Event (ℕ × ℕ))}
    (hv : Valid peers threads evs) (junk : ℕ × ℕ → List F) {S : List F} (sOut : Bool) (m0 : Cells F)
    (load' : ℕ × ℕ → Cells F → Option (List F)) (hm0 : sOut → m0.length = H * 64 * 64)
    (hlocal : ∀ p m, m.length = m0.length → (∀ i, k.owns p i → load m i = load m0 i) → load' p m = load' p m0)
    (hload : ∀ p ∈ threads, load' p m0 = some (k.part S p)) :
    ∃ s, run load' (write sOut) evs ⟨m0, alloc (toks.length * (H * 64)), junk⟩ = some s ∧
      s.mem = (if sOut then (tab (H * 64 * 64) (entry (Mealy.run (wkvStep exp (H * 64)) S toks).1)).map some else m0) ∧
      s.out = (tab (toks.length * (H * 64)) (entry (Mealy.run (wkvStep exp (H * 64)) S toks).2.flatten)).map some := by
  have hlen : (Mealy.run (wkvStep exp (H * 64)) S toks).2.length = toks.length := Mealy.length_run _ _ _
  generalize hfin : Mealy.run (wkvStep exp (H * 64)) S toks = fin at hlen
  have hmem : ∀ p, p ∈ stored evs ↔ p ∈ threads := fun p => hv.stored_perm.mem_iff
  have hrange : ∀ p ∈ threads, ∀ w ∈ (k.writes fin p).2, w.1 < (alloc (toks.length * (H * 64)) : Cells F).length := by
    intro p hp w hw
    rw [length_alloc, ← hlen]
    exact (k.out fin p hp w hw).1
  obtain ⟨s, hrun, hstate, hout⟩ := run_eq_stores hv k.nodup k.self
    (fun p => (if sOut then (k.writes fin p).1 else [], (k.writes fin p).2)) hlocal hload
    (fun p hp regs hregs => hfin ▸ k.stores S sOut regs p hp hregs)
    (fun p hp w hw => by
      cases sOut with
      | false => simp at hw
      | true =>
        obtain ⟨h1, h2, -⟩ := k.state fin p hp w hw
        exact ⟨h1, (hm0 rfl).symm ▸ h2⟩)
    hrange k.disjoint junk
  refine ⟨s, hrun, ?_, ?_⟩
  · cases sOut with
    | false =>
      have hnil : ((stored evs).map fun _ => ([] : List (ℕ × F))).flatten = [] := by simp
      simp only [Bool.false_eq_true, ↓reduceIte, hnil] at hstate ⊢
      exact (Option.some.inj hstate).symm
    | true =>
      simp only [↓reduceIte] at hstate ⊢
      rw [stores_contents (v := entry fin.1), hm0 rfl] at hstate
      · exact (Option.some.inj hstate).symm
      · intro p hp w hw
        obtain ⟨-, h2, h3⟩ := k.state fin p ((hmem p).mp hp) w hw
        exact ⟨(hm0 rfl).symm ▸ h2, h3⟩
      · intro i hi
        obtain ⟨p, hp, hw⟩ := k.state_cover fin i (hm0 rfl ▸ hi)
        exact ⟨p, (hmem p).mpr hp, hw⟩
  · dsimp only at hout
    rw [stores_contents (v := entry fin.2.flatten), length_alloc] at hout
    · exact (Option.some.inj hout).symm
    · intro p hp w hw
      rw [length_alloc, ← hlen]
      exact k.out fin p ((hmem p).mp hp) w hw
    · intro i hi
      rw [length_alloc, ← hlen] at hi
      obtain ⟨p, hp, hw⟩ := k.out_cover fin i hi
      exact ⟨p, (hmem p).mpr hp, hw⟩

/-- **A launch of a kernel**, in any order: the recurrence over the whole state, with two buffers or one. -/
theorem launch_eq (k : Kernel exp toks H threads peers read write) {evs : List (Event (ℕ × ℕ))}
    (hv : Valid peers threads evs) (junk : ℕ × ℕ → List F) {st : WkvState F} (hst : st.Sized (H * 64)) :
    scheduled read write evs junk (alloc (toks.length * (H * 64))) st =
      some ((Mealy.run (wkvStep exp (H * 64)) (st.initial (H * 64)) toks).2.flatten,
        st.final (Mealy.run (wkvStep exp (H * 64)) (st.initial (H * 64)) toks).1) := by
  have hwidth := Mealy.run_output (f := wkvStep exp (H * 64)) (P := fun _ => True) (Q := fun o => o.length = H * 64)
    (fun _ _ _ => trivial) (fun S x _ => (length_wkvStep exp (H * 64) S x).2) (s := st.initial (H * 64)) toks trivial
  have hout := tab_entry (length_flatten_rows hwidth)
  rw [Mealy.length_run] at hout
  have hsize : ∀ S : List F, S.length = H * 64 * 64 →
      (Mealy.run (wkvStep exp (H * 64)) S toks).1.length = H * 64 * 64 := fun S hS =>
    Mealy.run_state (f := wkvStep exp (H * 64)) (P := fun S => S.length = H * 64 * 64)
      (fun S x _ => (length_wkvStep exp (H * 64) S x).1) toks hS
  have hread : ∀ sIn : Option (List F), (∀ s ∈ sIn, s.length = H * 64 * 64) → ∀ p ∈ threads,
      read p (sIn.map fun s => s.map some) = some (k.part (sIn.getD (tab (H * 64 * 64) fun _ => 0)) p) := by
    intro sIn hs p hp
    cases sIn with
    | none => exact k.zero p hp
    | some s => exact k.loads s (hs s rfl) p hp
  match st, hst with
  | .separate sIn none, h =>
    obtain ⟨s, hrun, -, hs⟩ := k.run_eq hv junk false [] (fun p _ => read p (sIn.map fun s => s.map some))
      (fun hf => by cases hf) (fun _ _ _ _ => rfl) (hread sIn h.1)
    simp only [WkvState.initial] at hout
    simp only [scheduled, hrun, Option.bind_eq_bind, Option.bind_some, hs, hout, contents_map_some]
    rfl
  | .separate sIn (some d), h =>
    have hd : (d.map some).length = H * 64 * 64 := by rw [List.length_map]; exact h.2 d rfl
    obtain ⟨s, hrun, hm, hs⟩ := k.run_eq hv junk true (d.map some) (fun p _ => read p (sIn.map fun s => s.map some))
      (fun _ => hd) (fun _ _ _ _ => rfl) (hread sIn h.1)
    have hS : (sIn.getD (tab (H * 64 * 64) fun _ => 0)).length = H * 64 * 64 := by
      cases sIn with
      | none => exact length_tab _ _
      | some s => exact h.1 s rfl
    simp only [WkvState.initial] at hout
    simp only [scheduled, hrun, Option.bind_eq_bind, Option.bind_some, hs, hm, hout, ↓reduceIte,
      tab_entry (hsize _ hS), contents_map_some]
    rfl
  | .inPlace s, h =>
    have hs : (s.map some).length = H * 64 * 64 := by rw [List.length_map]; exact h
    obtain ⟨s', hrun, hm, ho⟩ := k.run_eq hv junk true (s.map some) (fun p m => read p (some m)) (fun _ => hs)
      (fun p m _ hload => k.local_ p m (s.map some) hload) fun p hp => k.loads s h p hp
    simp only [WkvState.initial] at hout
    simp only [scheduled, hrun, Option.bind_eq_bind, Option.bind_some, ho, hm, hout, ↓reduceIte,
      tab_entry (hsize _ h), contents_map_some]
    rfl

/-- The threads of a kernel write the whole state and the whole output, and agree on both. -/
theorem written (k : Kernel exp toks H threads peers read write) {fin : List F × List (List F)}
    (hS : fin.1.length = H * 64 * 64) (hwidth : ∀ o ∈ fin.2, o.length = H * 64) :
    Written threads (fun p => (k.writes fin p).1) fin.1 ∧ Written threads (fun p => (k.writes fin p).2) fin.2.flatten := by
  have hflat : fin.2.flatten.length = fin.2.length * (H * 64) := length_flatten_rows hwidth
  refine ⟨⟨fun i hi => k.state_cover fin i (hS ▸ hi), fun p hp w hw => ?_⟩,
    fun i hi => k.out_cover fin i (hflat ▸ hi), fun p hp w hw => ?_⟩
  · obtain ⟨-, h2, h3⟩ := k.state fin p hp w hw
    rw [getElem?_entry (hS.symm ▸ h2), h3]
  · obtain ⟨h2, h3⟩ := k.out fin p hp w hw
    rw [getElem?_entry (hflat.symm ▸ h2), h3]

end Kernel

/-! ### The two kernels -/

/-- The token and the row of an entry of the output. -/
theorem token_of_lt {T C a : ℕ} (ha : a < T * C) : a / C < T ∧ a % C < C ∧ a / C * C + a % C = a := by
  have hpos : 0 < C := Nat.pos_of_ne_zero fun h0 => by simp [h0] at ha
  exact ⟨Nat.div_lt_of_lt_mul (Nat.mul_comm T C ▸ ha), Nat.mod_lt a hpos, Nat.div_add_mod' a C⟩

theorem lt_of_token {T C t c : ℕ} (ht : t < T) (hc : c < C) : t * C + c < T * C := by
  have hle : (t + 1) * C ≤ T * C := Nat.mul_le_mul_right C ht
  rw [Nat.succ_mul] at hle
  omega

section Instances

variable (exp : F → F) {H : ℕ} {toks : List (WkvInputs F)} (hw : ∀ x ∈ toks, x.Wide (H * 64))

theorem mem_splitPeers {T : ℕ} (p : ℕ × ℕ) : p ∈ splitPeers T p := by
  unfold splitPeers
  by_cases hT : T = 0
  · rw [if_pos hT]
    exact List.mem_singleton_self p
  · rw [if_neg hT]
    have hlane : p.2 / 4 * 4 + p.2 % 4 = p.2 := by omega
    exact List.mem_map.mpr ⟨p.2 % 4, List.mem_range.mpr (Nat.mod_lt _ (by decide)), by rw [hlane]⟩

def splitKernel : Kernel exp toks H (splitLanes H) (splitPeers toks.length) loadLane
    (splitWrite exp (WkvInputs.flat toks) toks.length H) where
  part := lanePart
  owns p i := i / 64 = p.1 / 2 * 64 + laneRow p.1 p.2 ∧ i % 64 / 16 = p.2 % 4
  writes fin p := laneStores H fin p
  nodup := List.nodup_range.product List.nodup_range
  self p _ := mem_splitPeers p
  disjoint := by
    intro p hp q hq hne i hi hj
    have hp2 := List.mem_range.mp (List.mem_product.mp hp).2
    have hq2 := List.mem_range.mp (List.mem_product.mp hq).2
    unfold laneRow at hi hj
    exact hne (Prod.ext (by omega) (by omega))
  local_ := by
    intro p m m' h
    refine mapM_congr fun i hi => ?_
    have hi := List.mem_range.mp hi
    have hfrom : laneFrom p.2 = p.2 % 4 * 16 := rfl
    exact h _ ⟨by omega, by omega⟩
  zero p hp := loadLane_zero hp
  loads S hS p hp := loadLane_eq hS hp
  stores S sOut regs p hp hregs := splitWrite_eq hw exp sOut hp hregs
  state := by
    intro fin p hp w hw
    obtain ⟨h1, h2⟩ := List.mem_product.mp hp
    have h1 := List.mem_range.mp h1
    have hrow := laneRow_lt p.1 (List.mem_range.mp h2)
    obtain ⟨i, hi, rfl⟩ := List.mem_map.mp hw
    have hi := List.mem_range.mp hi
    have hfrom : laneFrom p.2 = p.2 % 4 * 16 := rfl
    dsimp only
    exact ⟨⟨by omega, by omega⟩, by omega, rfl⟩
  state_cover := by
    intro fin a ha
    refine ⟨(a / 64 / 32, a / 64 % 32 * 4 + a % 64 / 16), ?_, (a, entry fin.1 a), ?_, rfl⟩
    · exact List.mem_product.mpr ⟨List.mem_range.mpr (by omega), List.mem_range.mpr (by omega)⟩
    · refine List.mem_map.mpr ⟨a % 16, List.mem_range.mpr (by omega), ?_⟩
      have hcell : (a / 64 / 32 / 2 * 64 + laneRow (a / 64 / 32) (a / 64 % 32 * 4 + a % 64 / 16)) * 64 +
          (laneFrom (a / 64 % 32 * 4 + a % 64 / 16) + a % 16) = a := by
        unfold laneRow laneFrom
        omega
      rw [hcell]
  out := by
    intro fin p hp w hw
    obtain ⟨h1, h2⟩ := List.mem_product.mp hp
    have h1 := List.mem_range.mp h1
    have hrow := laneRow_lt p.1 (List.mem_range.mp h2)
    unfold laneStores at hw
    by_cases hjs : p.2 % 4 = 0
    · rw [if_pos hjs] at hw
      obtain ⟨t, ht, rfl⟩ := List.mem_map.mp hw
      exact ⟨lt_of_token (List.mem_range.mp ht) (by omega), rfl⟩
    · rw [if_neg hjs] at hw
      simp at hw
  out_cover := by
    intro fin a ha
    obtain ⟨hdiv, hmod, hsplit⟩ := token_of_lt ha
    refine ⟨(a % (H * 64) / 32, a % (H * 64) % 32 * 4), ?_, (a, entry fin.2.flatten a), ?_, rfl⟩
    · exact List.mem_product.mpr ⟨List.mem_range.mpr (by omega), List.mem_range.mpr (by omega)⟩
    · have hrow : a % (H * 64) / 32 / 2 * 64 + laneRow (a % (H * 64) / 32) (a % (H * 64) % 32 * 4) = a % (H * 64) := by
        unfold laneRow
        omega
      unfold laneStores
      rw [if_pos (Nat.mul_mod_left _ 4)]
      refine List.mem_map.mpr ⟨a / (H * 64), List.mem_range.mpr hdiv, ?_⟩
      rw [hrow, hsplit]

include hw in
theorem serialWrite_eq {S : List F} (sOut : Bool) {regs : ℕ × ℕ → List F} {h i : ℕ} (hh : h < H) (hi : i < 64)
    (hregs : regs (h, i) = stateRow S (h * 64 + i)) :
    serialWrite exp (WkvInputs.flat toks) toks.length H sOut regs (h, i) =
      some (if sOut then (rowStores H (Mealy.run (wkvStep exp (H * 64)) S toks) (h, i)).1 else [],
        (rowStores H (Mealy.run (wkvStep exp (H * 64)) S toks) (h, i)).2) := by
  -- the thread of the launch that starts with this row
  have hrow : loadRow (h, i) (some ((tab (H * 64 * 64) (entry S)).map some)) = some (stateRow S (h * 64 + i)) := by
    rw [loadRow_eq (length_tab _ _) hh hi]
    refine congrArg some (tab_congr fun j hj => ?_)
    rw [entry_tab _ (by omega)]
  have hthread : wkvThread (serialStep exp) _ _ _ _ _ = _ := wkvThread_eq hw hh hi hrow
  unfold wkvThread at hthread
  unfold serialWrite
  rw [hrow, Option.bind_eq_bind, Option.bind_some] at hthread
  rw [hregs]
  cases htoks : (List.range toks.length).mapM (loadShared (WkvInputs.flat toks) H (h, i)) with
  | none =>
    rw [htoks] at hthread
    simp at hthread
  | some tokens =>
    rw [htoks] at hthread
    obtain ⟨h1, h2⟩ := Prod.mk.inj (Option.some.inj hthread)
    rw [Option.bind_eq_bind, Option.bind_some]
    exact congrArg some (congrArg₂ Prod.mk (congrArg (fun l => if sOut then l else []) h1) h2)

def serialKernel : Kernel exp toks H (serialThreads H) (fun p => [p]) loadRow
    (serialWrite exp (WkvInputs.flat toks) toks.length H) where
  part S p := stateRow S (p.1 * 64 + p.2)
  owns p i := i / 64 = p.1 * 64 + p.2
  writes fin p := rowStores H fin p
  nodup := (serialThreads_rows H).nodup
  self p _ := List.mem_singleton_self p
  disjoint := by
    intro p hp q hq hne i hi hj
    have h1 := ((serialThreads_rows H).mem p.1 p.2).mp hp
    have h2 := ((serialThreads_rows H).mem q.1 q.2).mp hq
    exact hne (Prod.ext (by omega) (by omega))
  local_ := by
    intro p m m' h
    refine mapM_congr fun j hj => ?_
    have hj := List.mem_range.mp hj
    exact h _ (by omega)
  zero p hp := by
    obtain ⟨hh, hi⟩ := ((serialThreads_rows H).mem p.1 p.2).mp hp
    exact loadRow_zero hh hi
  loads S hS p hp := by
    obtain ⟨hh, hi⟩ := ((serialThreads_rows H).mem p.1 p.2).mp hp
    exact loadRow_eq hS hh hi
  stores S sOut regs p hp hregs := by
    obtain ⟨hh, hi⟩ := ((serialThreads_rows H).mem p.1 p.2).mp hp
    exact serialWrite_eq exp hw sOut hh hi (hregs p (List.mem_singleton_self p))
  state := by
    intro fin p hp w hw
    obtain ⟨hh, hi⟩ := ((serialThreads_rows H).mem p.1 p.2).mp hp
    obtain ⟨j, hj, rfl⟩ := List.mem_map.mp hw
    have hj := List.mem_range.mp hj
    dsimp only
    exact ⟨by omega, by omega, rfl⟩
  state_cover := by
    intro fin a ha
    refine ⟨(a / 64 / 64, a / 64 % 64), ((serialThreads_rows H).mem _ _).mpr ⟨by omega, by omega⟩,
      (a, entry fin.1 a), ?_, rfl⟩
    refine List.mem_map.mpr ⟨a % 64, List.mem_range.mpr (by omega), ?_⟩
    have hcell : (a / 64 / 64 * 64 + a / 64 % 64) * 64 + a % 64 = a := by omega
    rw [hcell]
  out := by
    intro fin p hp w hw
    obtain ⟨hh, hi⟩ := ((serialThreads_rows H).mem p.1 p.2).mp hp
    obtain ⟨t, ht, rfl⟩ := List.mem_map.mp hw
    exact ⟨lt_of_token (List.mem_range.mp ht) (by omega), rfl⟩
  out_cover := by
    intro fin a ha
    obtain ⟨hdiv, hmod, hsplit⟩ := token_of_lt ha
    refine ⟨(a % (H * 64) / 64, a % (H * 64) % 64), ((serialThreads_rows H).mem _ _).mpr ⟨by omega, by omega⟩,
      (a, entry fin.2.flatten a), ?_, rfl⟩
    refine List.mem_map.mpr ⟨a / (H * 64), List.mem_range.mpr hdiv, ?_⟩
    have hrow : a % (H * 64) / 64 * 64 + a % (H * 64) % 64 = a % (H * 64) := by omega
    rw [hrow, hsplit]

end Instances

/-- **The split launch is the serial launch.** Whatever the order of the threads of each, and in two buffers or in one,
both compute the recurrence over the whole state; the threads of each write every entry of it, and of the output, and
agree on it, as every thread whose lanes hold their parts of the state stores what it has to. -/
theorem wkv7SplitLaunch_eq_serial (exp : F → F) {H : ℕ} {toks : List (WkvInputs F)}
    (hw : ∀ x ∈ toks, x.Wide (H * 64)) {evs evs' : List (Event (ℕ × ℕ))}
    (hv : Valid (splitPeers toks.length) (splitLanes H) evs) (hv' : Valid (fun p => [p]) (serialThreads H) evs')
    (junk junk' : ℕ × ℕ → List F) {st : WkvState F} (hst : st.Sized (H * 64)) :
    let fin := Mealy.run (wkvStep exp (H * 64)) (st.initial (H * 64)) toks
    let out := alloc (toks.length * (H * 64))
    let x := WkvInputs.flat toks
    wkv7SplitLaunch exp evs junk x toks.length H out st = wkv7SerialLaunch exp evs' junk' x toks.length H out st ∧
    wkv7SplitLaunch exp evs junk x toks.length H out st = some (fin.2.flatten, st.final fin.1) ∧
    (∀ s d : List F, s.length = H * 64 * 64 → d.length = H * 64 * 64 →
      wkv7SplitLaunch exp evs junk x toks.length H out (.inPlace s) =
        wkv7SplitLaunch exp evs junk x toks.length H out (.separate (some s) (some d)) ∧
      wkv7SerialLaunch exp evs' junk' x toks.length H out (.inPlace s) =
        wkv7SerialLaunch exp evs' junk' x toks.length H out (.separate (some s) (some d))) ∧
    Written (splitLanes H) (fun p => (laneStores H fin p).1) fin.1 ∧
    Written (splitLanes H) (fun p => (laneStores H fin p).2) fin.2.flatten ∧
    (∀ sOut regs, ∀ p ∈ splitLanes H, (∀ u ∈ splitPeers toks.length p, regs u = lanePart (st.initial (H * 64)) u) →
      splitWrite exp x toks.length H sOut regs p =
        some (if sOut then (laneStores H fin p).1 else [], (laneStores H fin p).2)) ∧
    Written (serialThreads H) (fun p => (rowStores H fin p).1) fin.1 ∧
    Written (serialThreads H) (fun p => (rowStores H fin p).2) fin.2.flatten ∧
    (∀ sOut regs, ∀ p ∈ serialThreads H, regs p = stateRow (st.initial (H * 64)) (p.1 * 64 + p.2) →
      serialWrite exp x toks.length H sOut regs p =
        some (if sOut then (rowStores H fin p).1 else [], (rowStores H fin p).2)) := by
  have hsplit : ∀ {st : WkvState F}, st.Sized (H * 64) →
      wkv7SplitLaunch exp evs junk (WkvInputs.flat toks) toks.length H (alloc (toks.length * (H * 64))) st = _ :=
    fun hst => (splitKernel exp hw).launch_eq hv junk hst
  have hserial : ∀ {st : WkvState F}, st.Sized (H * 64) →
      wkv7SerialLaunch exp evs' junk' (WkvInputs.flat toks) toks.length H (alloc (toks.length * (H * 64))) st = _ :=
    fun hst => (serialKernel exp hw).launch_eq hv' junk' hst
  have hS : (Mealy.run (wkvStep exp (H * 64)) (st.initial (H * 64)) toks).1.length = H * 64 * 64 :=
    Mealy.run_state (f := wkvStep exp (H * 64)) (P := fun S => S.length = H * 64 * 64)
      (fun S x _ => (length_wkvStep exp (H * 64) S x).1) toks (sized_initial hst)
  have hwidth := Mealy.run_output (f := wkvStep exp (H * 64)) (P := fun _ => True) (Q := fun o => o.length = H * 64)
    (fun _ _ _ => trivial) (fun S x _ => (length_wkvStep exp (H * 64) S x).2) (s := st.initial (H * 64)) toks trivial
  have hw1 := (splitKernel exp hw).written hS hwidth
  have hw2 := (serialKernel exp hw).written hS hwidth
  refine ⟨(hsplit hst).trans (hserial hst).symm, hsplit hst, fun s d hs hd => ⟨?_, ?_⟩, hw1.1, hw1.2,
    fun sOut regs p hp hregs => splitWrite_eq hw exp sOut hp hregs, hw2.1, hw2.2, fun sOut regs p hp hregs => ?_⟩
  · have hin : (WkvState.inPlace s).Sized (H * 64) := hs
    have hsep : (WkvState.separate (some s) (some d)).Sized (H * 64) :=
      ⟨fun _ h => Option.some.inj h ▸ hs, fun _ h => Option.some.inj h ▸ hd⟩
    rw [hsplit hin, hsplit hsep]
    rfl
  · have hin : (WkvState.inPlace s).Sized (H * 64) := hs
    have hsep : (WkvState.separate (some s) (some d)).Sized (H * 64) :=
      ⟨fun _ h => Option.some.inj h ▸ hs, fun _ h => Option.some.inj h ▸ hd⟩
    rw [hserial hin, hserial hsep]
    rfl
  · obtain ⟨hh, hi⟩ := ((serialThreads_rows H).mem p.1 p.2).mp hp
    exact serialWrite_eq exp hw sOut hh hi hregs

theorem splitPeers_sub {T H : ℕ} {p : ℕ × ℕ} (hp : p ∈ splitLanes H) : ∀ u ∈ splitPeers T p, u ∈ splitLanes H := by
  intro u hu
  unfold splitPeers at hu
  by_cases hT : T = 0
  · rw [if_pos hT] at hu
    exact List.mem_singleton.mp hu ▸ hp
  · rw [if_neg hT] at hu
    obtain ⟨l, hl, rfl⟩ := List.mem_map.mp hu
    obtain ⟨h1, h2⟩ := List.mem_product.mp hp
    have hl := List.mem_range.mp hl
    have h2 := List.mem_range.mp h2
    exact List.mem_product.mpr ⟨h1, List.mem_range.mpr (by omega)⟩

theorem wkv7SplitLaunch_eq_serial_one :
    let x : WkvInputs ℚ := {
      r := List.replicate 64 1, w := List.replicate 64 0, k := List.replicate 64 1, v := List.replicate 64 1,
      a := List.replicate 64 1, b := List.replicate 64 0 }
    wkv7SplitLaunch (fun w => w + 1) ((splitLanes 1).map .load ++ (splitLanes 1).map .store) (fun _ => [])
        (WkvInputs.flat [x]) [x].length 1 (alloc ([x].length * (1 * 64))) (.inPlace (List.replicate 4096 0)) =
      wkv7SerialLaunch (fun w => w + 1) ((serialThreads 1).map .load ++ (serialThreads 1).map .store) (fun _ => [])
        (WkvInputs.flat [x]) [x].length 1 (alloc ([x].length * (1 * 64))) (.inPlace (List.replicate 4096 0)) := by
  intro x
  have hx : ∀ y ∈ [x], y.Wide (1 * 64) := by
    intro y hy
    rw [List.mem_singleton.mp hy]
    exact ⟨List.length_replicate, List.length_replicate, List.length_replicate, List.length_replicate,
      List.length_replicate, List.length_replicate⟩
  have hst : (WkvState.inPlace (List.replicate 4096 (0 : ℚ))).Sized (1 * 64) := List.length_replicate
  exact (wkv7SplitLaunch_eq_serial (fun w => w + 1) hx (valid_phases fun p hp => splitPeers_sub hp)
    (valid_phases fun p hp u hu => List.mem_singleton.mp hu ▸ hp) (fun _ => []) (fun _ => []) hst).1

/-- The launches of the engine, where the four lanes of a row are one thread, do the same. -/
theorem wkvKernel_eq_launches (exp : F → F) {H : ℕ} {toks : List (WkvInputs F)} (hw : ∀ x ∈ toks, x.Wide (H * 64))
    {evs evs' : List (Event (ℕ × ℕ))} (hv : Valid (splitPeers toks.length) (splitLanes H) evs)
    (hv' : Valid (fun p => [p]) (serialThreads H) evs') (junk junk' : ℕ × ℕ → List F) {st : WkvState F}
    (hst : st.Sized (H * 64)) :
    wkvKernel (splitStep exp) (splitThreads H) (WkvInputs.flat toks) toks.length H (alloc (toks.length * (H * 64))) st =
      wkv7SplitLaunch exp evs junk (WkvInputs.flat toks) toks.length H (alloc (toks.length * (H * 64))) st ∧
    wkvKernel (serialStep exp) (serialThreads H) (WkvInputs.flat toks) toks.length H (alloc (toks.length * (H * 64))) st =
      wkv7SerialLaunch exp evs' junk' (WkvInputs.flat toks) toks.length H (alloc (toks.length * (H * 64))) st := by
  have hstep : (splitStep exp : List F → Shared F → List F × F) = serialStep exp := by
    funext state s
    exact splitStep_eq exp state s
  rw [hstep, wkvKernel_eq hw exp (splitThreads_rows H) hst, wkvKernel_eq hw exp (serialThreads_rows H) hst]
  exact ⟨((splitKernel exp hw).launch_eq hv junk hst).symm, ((serialKernel exp hw).launch_eq hv' junk' hst).symm⟩

end Rwkv
end Siphon
