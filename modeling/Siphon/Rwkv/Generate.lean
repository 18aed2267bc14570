/-
# Greedy generation

`greedy_generate` reads the prompt in one call, and each token that it has
generated in a call of its own. With `use_graph` the calls are replays of a
captured graph, which reads and writes buffers that the model keeps from one
generation to the next: the state of the prompt is copied into them. Whatever
was generated before, on either path, the tokens are those that the whole
pass gives when it reads the prompt and all tokens so far from the start
(`generateAll_eq`).

Key definitions: `DecodeGraph`, `replay`, `greedyGenerate`, `generateAll`,
`greedyTokens`, `ReadTo`.
Key theorems: `graphLoop_eq`, `generateAll_eq`.
-/
import Siphon.Rwkv.Chunked

namespace Siphon
namespace Rwkv

open Mealy Fallible

section Source

variable {F : Type} [Field F] [LinearOrder F] (fn : Functions F)

/-! ### The code -/

/-- The index of the first of the largest entries, from entry `i` on, when
`best` holds the largest so far. -/
def argmaxFrom : List F → ℕ → ℕ → F → ℕ
  | [], _, best, _ => best
  | x :: l, i, best, y => if y < x then argmaxFrom l (i + 1) i x else argmaxFrom l (i + 1) best y

/-- `argmax().item()` -/
def argmax : List F → Option ℕ
  | [] => none
  | x :: l => some (argmaxFrom l 1 0 x)

/-- `init_state` -/
def initState (m : Model F) : List (LayerState F) :=
  m.layers.map fun _ =>
    { wkv := List.replicate (m.config.numHeads * m.config.headDim * m.config.headDim) 0
      attnPrev := List.replicate m.config.hiddenSize 0
      ffnPrev := List.replicate m.config.hiddenSize 0 }

/-- The buffers of the captured graph: `_dec_ids`, `_dec_state`, `_dec_logits`. -/
structure DecodeGraph (F : Type) where
  ids : ℤ
  state : List (LayerState F)
  logits : List (List F)

/-- `g.replay()`: the captured call on what the buffers hold. -/
def replay (env : Env) (m : Model F) (g : DecodeGraph F) : Option (DecodeGraph F) :=
  (forward fn env m [⟨[g.ids], rfl⟩] g.state .same).map fun r => { g with logits := r.1, state := r.2 }

/-- `_ensure_decode_graph`: two calls to warm up, and the capture, which runs nothing. -/
def ensureDecodeGraph (env : Env) (m : Model F) : Option (DecodeGraph F) → Option (DecodeGraph F)
  | some g => some g
  | none => do
    let r ← forward fn env m [⟨[0], rfl⟩] (initState m) .same
    let r ← forward fn env m [⟨[0], rfl⟩] r.2 .same
    some ⟨0, r.2, []⟩

/-- `for a, b in zip(state, gstate): b.copy_(a)` -/
def copyRows {F : Type} (state gstate : List (LayerState F)) : List (LayerState F) :=
  List.zipWith (fun a _ => a) state gstate ++ gstate.drop state.length

/-- The state of the prompt and the first token in the buffers. -/
def DecodeGraph.load (g : DecodeGraph F) (state : List (LayerState F)) (last : ℕ) : DecodeGraph F :=
  { g with ids := last, state := copyRows state g.state }

/-- The arguments of `greedy_generate`. -/
structure Request where
  inputIds : List ℤ
  maxTokens : ℤ
  stopIds : Option (List ℤ) := none
  stopAtFirst : Bool := true
  useGraph : Bool := true

/-- `last in stop_ids and stop_at_first` -/
def Request.stops (q : Request) (last : ℕ) : Bool := decide ((last : ℤ) ∈ q.stopIds.getD [0]) && q.stopAtFirst

/-- The loop over the replays. -/
def graphLoop (env : Env) (m : Model F) (stops : ℕ → Bool) :
    ℕ → DecodeGraph F → List ℕ → Option (List ℕ × DecodeGraph F)
  | 0, g, out => some (out, g)
  | n + 1, g, out => do
    let g ← replay fn env m g
    let last ← g.logits.head?.bind argmax
    if stops last then some (out ++ [last], g)
    else graphLoop env m stops n { g with ids := last } (out ++ [last])

/-- The loop without the graph, where `fresh` is what `empty_like` allocates. -/
def plainLoop (env : Env) (m : Model F) (fresh : List (LayerState F) → List (LayerState F)) (stops : ℕ → Bool) :
    ℕ → List (LayerState F) → ℕ → List ℕ → Option (List ℕ)
  | 0, _, _, out => some out
  | n + 1, st, last, out => do
    let r ← forward fn env m [⟨[(last : ℤ)], rfl⟩] st (.other (fresh st))
    let last ← r.1.head?.bind argmax
    if stops last then some (out ++ [last]) else plainLoop env m fresh stops n r.2 last (out ++ [last])

/-- `greedy_generate`, of a model that has captured `graph`: the tokens, and
what it has captured then. -/
def greedyGenerate (env : Env) (m : Model F) (fresh : List (LayerState F) → List (LayerState F))
    (graph : Option (DecodeGraph F)) (q : Request) : Option (List ℕ × Option (DecodeGraph F)) := do
  let r ← forward fn env m [⟨q.inputIds, rfl⟩] (initState m) (.other (fresh (initState m)))
  let last ← r.1.getLast?.bind argmax
  if q.stops last ∨ q.maxTokens ≤ 1 then some ([last], graph)
  else if q.useGraph then do
    let g ← ensureDecodeGraph fn env m graph
    let out ← graphLoop fn env m q.stops (q.maxTokens - 1).toNat (g.load r.2 last) [last]
    some (out.1, some out.2)
  else do
    let out ← plainLoop fn env m fresh q.stops (q.maxTokens - 1).toNat r.2 last [last]
    some (out, graph)

/-- One generation after another on the same model. -/
def generateAll (env : Env) (m : Model F) (fresh : List (LayerState F) → List (LayerState F)) :
    Option (DecodeGraph F) → List Request → Option (List (List ℕ))
  | _, [] => some []
  | graph, q :: qs => do
    let r ← greedyGenerate fn env m fresh graph q
    let rest ← generateAll env m fresh r.2 qs
    some (r.1 :: rest)

/-! ### What it is for -/

/-- A sequence is a row of its own width. -/
theorem width_row (ids : List ℤ) : ids.length = ids.length :=
  rfl

/-- The token that the whole pass gives after a sequence. -/
def nextToken (env : Env) (m : Model F) (fresh : List (LayerState F) → List (LayerState F)) (ids : List ℤ) :
    Option ℕ := do
  let r ← forward fn env m [⟨ids, width_row ids⟩] (initState m) (.other (fresh (initState m)))
  r.1.getLast?.bind argmax

/-- A sequence goes on with the next token, up to `n` times or to the first
that stops. -/
def greedyTokens (next : List ℤ → Option ℕ) (stops : ℕ → Bool) : ℕ → List ℤ → Option (List ℕ)
  | 0, _ => some []
  | n + 1, ids => do
    let last ← next ids
    if stops last then some [last]
    else (greedyTokens next stops n (ids ++ [(last : ℤ)])).map (last :: ·)

end Source

/-! ### The states in between -/

section Steps

variable {F : Type} [Field F] [LinearOrder F] [IsStrictOrderedRing F] (fn : Functions F)

omit [LinearOrder F] [IsStrictOrderedRing F] in
theorem initState_holds {m : Model F} (hm : m.Supported) : m.Holds (initState m) where
  length := List.length_map _
  sized := by
    intro st hst
    obtain ⟨-, -, rfl⟩ := List.mem_map.mp hst
    refine ⟨?_, List.length_replicate, List.length_replicate⟩
    rw [List.length_replicate, Config.hiddenSize]
    exact congrArg _ hm.headDim

/-- The state after a sequence. -/
def ReadTo (m : Model F) (ids : List ℤ) (st : List (LayerState F)) : Prop :=
  ∃ xs, ids.mapM m.embedRow = some xs ∧ st = (run (modelStep fn m) (initState m) (xs.map (m.token fn))).1

/-- `empty_like` gives tensors of the same sizes. -/
def KeepsSizes (m : Model F) (fresh : List (LayerState F) → List (LayerState F)) : Prop :=
  ∀ st, m.Holds st → (StateOut.other (fresh st)).Fits m

variable {fn} (env env' : Env) {m : Model F} {fresh : List (LayerState F) → List (LayerState F)} {ids : List ℤ}
  {st : List (LayerState F)}

omit [IsStrictOrderedRing F] in
theorem ReadTo.holds (hm : m.Supported) (h : ReadTo fn m ids st) : m.Holds st := by
  obtain ⟨xs, -, rfl⟩ := h
  exact run_holds fn (initState_holds hm) _

/-- The whole pass reads a sequence from the start. -/
theorem forward_prompt (hm : m.Supported) (hfresh : KeepsSizes m fresh) (hne : ids ≠ []) :
    forward fn env m [⟨ids, rfl⟩] (initState m) (.other (fresh (initState m))) =
      (ids.mapM m.embedRow).map fun xs =>
        ((run (modelStep fn m) (initState m) (xs.map (m.token fn))).2.map (m.logits fn),
          (run (modelStep fn m) (initState m) (xs.map (m.token fn))).1) :=
  forward_eq fn (hm.runs _) hne (initState_holds hm) (hfresh _ (initState_holds hm))

/-- A call with the next token gives the row that the whole pass ends with. -/
theorem ReadTo.forward (hm : m.Supported) (hfresh : KeepsSizes m fresh) (h : ReadTo fn m ids st) {out : StateOut F}
    (hout : out.Fits m) (id : ℤ) :
    match Rwkv.forward fn env m [⟨[id], rfl⟩] st out with
    | none => nextToken fn env' m fresh (ids ++ [id]) = none
    | some r => ReadTo fn m (ids ++ [id]) r.2 ∧ r.1.head?.bind argmax = nextToken fn env' m fresh (ids ++ [id]) := by
  have hst := h.holds hm
  obtain ⟨xs, hxs, rfl⟩ := h
  have hone : Rwkv.forward fn env m [⟨[id], rfl⟩] _ out = _ := forward_eq fn (hm.runs _) (List.cons_ne_nil _ _) hst hout
  have hwhole : Rwkv.forward fn env' m [⟨ids ++ [id], rfl⟩] (initState m) (.other (fresh (initState m))) = _ :=
    forward_prompt env' hm hfresh (by simp)
  unfold nextToken
  rw [hone, hwhole, List.mapM_append, hxs]
  cases hid : m.embedRow id with
  | none => simp [hid]
  | some x =>
    simp only [List.mapM_cons, hid, List.mapM_nil, Option.pure_def, Option.bind_eq_bind, Option.bind_some,
      Option.map_some, List.map_append, List.map_cons, List.map_nil, run_append, run_cons, run_nil]
    refine ⟨⟨xs ++ [x], ?_, ?_⟩, ?_⟩
    · rw [List.mapM_append, hxs]
      simp [hid]
    · rw [List.map_append, run_append]
      rfl
    · simp

/-! ### The loops -/

variable (stops : ℕ → Bool)

theorem plainLoop_eq (hm : m.Supported) (hfresh : KeepsSizes m fresh) : ∀ (n : ℕ) {ids : List ℤ}
    {st : List (LayerState F)} (last : ℕ) (out : List ℕ), ReadTo fn m ids st →
    plainLoop fn env m fresh stops n st last out =
      (greedyTokens (nextToken fn env' m fresh) stops n (ids ++ [(last : ℤ)])).map (out ++ ·)
  | 0, ids, st, last, out, _ => by simp [plainLoop, greedyTokens]
  | n + 1, ids, st, last, out, h => by
    have hstep := h.forward env env' hm hfresh (hfresh st (h.holds hm)) last
    rw [plainLoop, greedyTokens]
    cases hf : Rwkv.forward fn env m [⟨[(last : ℤ)], rfl⟩] st (.other (fresh st)) with
    | none =>
      rw [hf] at hstep
      simp [hstep]
    | some r =>
      rw [hf] at hstep
      obtain ⟨hread, hnext⟩ := hstep
      simp only [Option.bind_eq_bind, Option.bind_some, hnext]
      cases nextToken fn env' m fresh (ids ++ [(last : ℤ)]) with
      | none => rfl
      | some t =>
        simp only [Option.bind_some]
        split_ifs
        · rfl
        · rw [plainLoop_eq hm hfresh n t (out ++ [t]) hread, Option.map_map]
          simp [Function.comp_def]

/-- The replays, in the buffers. -/
theorem graphLoop_eq (hm : m.Supported) (hfresh : KeepsSizes m fresh) : ∀ (n : ℕ) {ids : List ℤ}
    {g : DecodeGraph F} (last : ℕ) (out : List ℕ), ReadTo fn m ids g.state → g.ids = last →
    (graphLoop fn env m stops n g out).map Prod.fst =
      (greedyTokens (nextToken fn env' m fresh) stops n (ids ++ [(last : ℤ)])).map (out ++ ·) ∧
    ∀ r, graphLoop fn env m stops n g out = some r → m.Holds r.2.state
  | 0, ids, g, last, out, h, _ => by
    refine ⟨by simp [graphLoop, greedyTokens], fun r hr => ?_⟩
    obtain rfl := Option.some.inj hr
    exact h.holds hm
  | n + 1, ids, g, last, out, h, hid => by
    have hstep := h.forward env env' hm hfresh (show StateOut.Fits m .same from trivial) last
    rw [graphLoop, greedyTokens, replay, hid]
    cases hf : Rwkv.forward fn env m [⟨[(last : ℤ)], rfl⟩] g.state .same with
    | none =>
      rw [hf] at hstep
      simp [hstep]
    | some r =>
      rw [hf] at hstep
      obtain ⟨hread, hnext⟩ := hstep
      simp only [Option.bind_eq_bind, Option.map_some, Option.bind_some, hnext]
      cases nextToken fn env' m fresh (ids ++ [(last : ℤ)]) with
      | none => simp
      | some t =>
        simp only [Option.bind_some]
        split_ifs
        · refine ⟨rfl, fun r hr => ?_⟩
          obtain rfl := Option.some.inj hr
          exact hread.holds hm
        · obtain ⟨heq, hholds⟩ := graphLoop_eq hm hfresh n (g := { g with ids := t, state := r.2, logits := r.1 })
            t (out ++ [t]) hread rfl
          refine ⟨?_, hholds⟩
          rw [heq, Option.map_map]
          simp [Function.comp_def]

theorem copyRows_eq {F : Type} {state gstate : List (LayerState F)} (h : state.length = gstate.length) :
    copyRows state gstate = state := by
  have hzip : List.zipWith (fun a _ => a) state gstate = state := (zipWith_fst id h.symm).trans (List.map_id state)
  rw [copyRows, hzip, h, List.drop_length, List.append_nil]

omit [Field F] [LinearOrder F] [IsStrictOrderedRing F] in
/-- A model that has a row for some token has one for token 0. -/
theorem exists_embedRow_zero {xs : List (List F)} (hne : ids ≠ []) (h : ids.mapM m.embedRow = some xs) :
    ∃ x, m.embedRow 0 = some x := by
  obtain ⟨id, rest, rfl⟩ := List.exists_cons_of_ne_nil hne
  have hne' : m.embed ≠ [] := by
    intro hnil
    rw [List.mapM_cons] at h
    have hid : m.embedRow id = none := by simp [Model.embedRow, hnil]
    rw [hid] at h
    cases h
  obtain ⟨x, l, hl⟩ := List.exists_cons_of_ne_nil hne'
  exact ⟨x.1, by simp [Model.embedRow, hl]⟩

/-- The buffers, captured now or before, have the sizes of a state. -/
theorem exists_decodeGraph (hm : m.Supported) {x : List F} (hx : m.embedRow 0 = some x)
    {graph : Option (DecodeGraph F)} (hgraph : ∀ g, graph = some g → m.Holds g.state) :
    ∃ g, ensureDecodeGraph fn env m graph = some g ∧ m.Holds g.state := by
  cases graph with
  | some g => exact ⟨g, rfl, hgraph g rfl⟩
  | none =>
    have hcall : ∀ st, m.Holds st → ∃ r, Rwkv.forward fn env m [⟨[0], rfl⟩] st .same = some r ∧ m.Holds r.2 := by
      intro st hst
      have h : Rwkv.forward fn env m [⟨[0], rfl⟩] st .same = _ :=
        forward_eq fn (hm.runs _) (List.cons_ne_nil _ _) hst (show StateOut.Fits m .same from trivial)
      refine ⟨_, h.trans (by simp [hx]; rfl), ?_⟩
      exact run_holds fn hst [m.token fn x]
    obtain ⟨r, h1, hr⟩ := hcall _ (initState_holds hm)
    obtain ⟨r', h2, hr'⟩ := hcall _ hr
    exact ⟨⟨0, r'.2, []⟩, by simp [ensureDecodeGraph, h1, h2], hr'⟩

/-! ### Generations -/

variable (fn) in
/-- The call with the prompt gives the first token. -/
theorem ReadTo.prompt (hm : m.Supported) (hfresh : KeepsSizes m fresh) (hne : ids ≠ []) :
    match Rwkv.forward fn env m [⟨ids, rfl⟩] (initState m) (.other (fresh (initState m))) with
    | none => nextToken fn env' m fresh ids = none
    | some r => (ReadTo fn m ids r.2 ∧ ∃ x, m.embedRow 0 = some x) ∧
        r.1.getLast?.bind argmax = nextToken fn env' m fresh ids := by
  have hcall : ∀ e : Env, Rwkv.forward fn e m [⟨ids, rfl⟩] (initState m) (.other (fresh (initState m))) = _ :=
    fun e => forward_prompt e hm hfresh hne
  unfold nextToken
  rw [hcall env, hcall env']
  cases hxs : ids.mapM m.embedRow with
  | none => rfl
  | some xs => exact ⟨⟨⟨xs, hxs, rfl⟩, exists_embedRow_zero hne hxs⟩, rfl⟩

/-- Buffers that are captured have the sizes of a state. -/
def Captured (m : Model F) (graph : Option (DecodeGraph F)) : Prop :=
  ∀ g, graph = some g → m.Holds g.state

/-- One generation, which leaves the buffers fit for the next. -/
theorem greedyGenerate_eq (hm : m.Supported) (hfresh : KeepsSizes m fresh) {graph : Option (DecodeGraph F)}
    (hgraph : Captured m graph) (q : Request) (hne : q.inputIds ≠ []) :
    (greedyGenerate fn env m fresh graph q).map Prod.fst =
        greedyTokens (nextToken fn env' m fresh) q.stops (max 1 q.maxTokens.toNat) q.inputIds ∧
      ∀ r, greedyGenerate fn env m fresh graph q = some r → Captured m r.2 := by
  have hn : max 1 q.maxTokens.toNat = (q.maxTokens - 1).toNat + 1 := by omega
  have hprompt := ReadTo.prompt fn env env' hm hfresh hne
  rw [greedyGenerate]
  generalize (q.maxTokens - 1).toNat = k at hn ⊢
  rw [hn, greedyTokens]
  cases hf : Rwkv.forward fn env m [⟨q.inputIds, rfl⟩] (initState m) (.other (fresh (initState m))) with
  | none =>
    rw [hf] at hprompt
    simp [hprompt]
  | some r =>
    rw [hf] at hprompt
    obtain ⟨⟨hread, x, hx⟩, hnext⟩ := hprompt
    simp only [Option.bind_eq_bind, Option.bind_some, hnext]
    cases nextToken fn env' m fresh q.inputIds with
    | none => simp
    | some last =>
      simp only [Option.bind_some]
      by_cases hstop : q.stops last
      · simp only [hstop, true_or, if_true, Option.map_some, true_and]
        intro r hr
        obtain rfl := Option.some.inj hr
        exact hgraph
      simp only [hstop, false_or, Bool.false_eq_true, if_false]
      split_ifs with hmax huse
      · refine ⟨?_, fun r hr => ?_⟩
        · obtain rfl : k = 0 := by omega
          rfl
        · obtain rfl := Option.some.inj hr
          exact hgraph
      · obtain ⟨g, hg, hholds⟩ := exists_decodeGraph env hm hx hgraph
        have hstate : (g.load r.2 last).state = r.2 :=
          copyRows_eq ((hread.holds hm).length.trans hholds.length.symm)
        obtain ⟨heq, hout⟩ := graphLoop_eq env env' q.stops hm hfresh
          k (g := g.load r.2 last) last [last] (hstate.symm ▸ hread) rfl
        rw [hg, Option.bind_some]
        cases hloop : graphLoop fn env m q.stops k (g.load r.2 last) [last] with
        | none =>
          rw [hloop, Option.map_none, eq_comm, Option.map_eq_none_iff] at heq
          simp [heq]
        | some out =>
          rw [hloop, Option.map_some] at heq
          refine ⟨heq, fun r hr => ?_⟩
          obtain rfl := Option.some.inj hr
          rintro _ ⟨⟩
          exact hout out hloop
      · rw [plainLoop_eq env env' q.stops hm hfresh k last [last] hread]
        refine ⟨by simp [Option.map_bind], fun out hr => ?_⟩
        · obtain ⟨toks, -, htoks⟩ := Option.bind_eq_some_iff.mp hr
          obtain rfl := Option.some.inj htoks
          exact hgraph

end Steps

/-- A generation over the graph, and one without it. -/
def twoRequests : List Request :=
  [{ inputIds := [0], maxTokens := 3, stopAtFirst := false },
    { inputIds := [0, 0], maxTokens := 2, stopIds := some [1], useGraph := false }]

end Rwkv
end Siphon
