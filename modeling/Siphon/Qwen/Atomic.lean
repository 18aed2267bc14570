/-
# A cached pass that fails

`forward_cached` advances the states of the layers in place, one layer after
another, and reports a layer without weights or with a state of the other kind
only when the loop has come to it. What the layers before it have advanced is
not taken back: the call returns `Err` over a cache whose first states have
read the chunk and whose length has not (`Halfway`).

A failed size check is a panic, and not an `Err`. So the errors to look at are
those of the two checks of a layer (`layerAt_returned_iff`), and a call that
returns one has run the layers before to their end.

Key definitions: `Fault.Returned`, `LayerWeightsAll.Takes`, `Halfway`, `Exposed`.
Key theorems: `runLayersCached_error`, `forwardCached_atomic`.
-/
import Siphon.Qwen.Cached

namespace Siphon
namespace Qwen

open Rows Fallible Gdn Attention

/-! ### Errors and panics -/

/-- The fault is an `Err`, which the caller gets back. -/
def Fault.Returned : Fault → Prop
  | .panic _ => False
  | .layer _ e => e.Returned
  | _ => True

/-- A computation without an `Err`. -/
def OnlyPanics {α : Type} (x : Except Fault α) : Prop := ∀ e, x = .error e → ¬e.Returned

theorem OnlyPanics.ok {α : Type} (v : α) : OnlyPanics (.ok v) := by
  intro e h
  cases h

theorem OnlyPanics.require {p : Prop} [Decidable p] (what : String) : OnlyPanics (require p what) := by
  intro e h
  unfold Qwen.require at h
  split at h
  · cases h
  · obtain rfl := Except.error.inj h
    exact id

theorem OnlyPanics.bind {α β : Type} {x : Except Fault α} {f : α → Except Fault β} (hx : OnlyPanics x)
    (hf : ∀ v, OnlyPanics (f v)) : OnlyPanics (x >>= f) := by
  intro e h
  rcases bind_eq_error_iff.mp h with h | ⟨v, -, h⟩
  · exact hx e h
  · exact hf v e h

variable {F D : Type} (a : Arith F D)

/-! ### The mixers and the MLP -/

theorem linear_onlyPanics (w : List F) (bias : Option (List F)) (x : List F) (n inDim outDim : ℕ) :
    OnlyPanics (linear a w bias x n inDim outDim) :=
  .bind (.require _) fun _ => .bind (.require _) fun _ => .ok _

theorem rmsnorm1plus_onlyPanics (w x : List F) (n dim : ℕ) (eps : F) : OnlyPanics (rmsnorm1plus a w x n dim eps) :=
  .bind (.require _) fun _ => .bind (.require _) fun _ => .ok _

theorem rmsnormGated_onlyPanics (w x z : List F) (n dim : ℕ) (eps : F) :
    OnlyPanics (rmsnormGated a w x z n dim eps) :=
  .bind (.require _) fun _ => .bind (.require _) fun _ => .bind (.require _) fun _ => .ok _

theorem convBlock_onlyPanics (cfg : GdnConfig F) (w : GdnWeights F) (mixed : List F) (b t : ℕ) (st : Option (List F)) :
    OnlyPanics (convBlock a cfg w mixed b t st) := by
  apply OnlyPanics.bind (.bind (.require _) fun _ => .ok _)
  intro x
  apply OnlyPanics.bind (.bind (.require _) fun _ => .bind (.require _) fun _ => .bind (.require _) fun _ => .ok _)
  rintro ⟨out, next⟩
  exact .bind (.bind (.require _) fun _ => .ok _) fun _ => .ok _

theorem forwardPreparedInto_onlyPanics (s : Delta.Shape) (o : Delta.Operands F) (st : List F) :
    OnlyPanics (Delta.forwardPreparedInto a s o st) := by
  have hvalidate (o : Delta.Operands F) : OnlyPanics (Delta.validateOperands s o) :=
    .bind (.require _) fun _ => .bind (.require _) fun _ => .bind (.require _) fun _ => .bind (.require _) fun _ => .require _
  exact .bind (hvalidate o) fun _ => .bind (.require _) fun _ => .bind (hvalidate _) fun _ => .bind (.require _) fun _ => .ok _

theorem gdnForwardImpl_onlyPanics (cfg : GdnConfig F) (w : GdnWeights F) (x : List F) (b t : ℕ) (st : Option (GdnState F)) :
    OnlyPanics (Gdn.forwardImpl a cfg w x b t st) := by
  refine .bind (.require _) fun _ => ?_
  refine .bind (linear_onlyPanics a _ _ _ _ _ _) fun _ => .bind (linear_onlyPanics a _ _ _ _ _ _) fun _ => ?_
  refine .bind (linear_onlyPanics a _ _ _ _ _ _) fun _ => .bind (linear_onlyPanics a _ _ _ _ _ _) fun _ => ?_
  refine .bind (convBlock_onlyPanics a cfg w _ b t _) fun _ => ?_
  refine .bind (.require _) fun _ => .bind (.require _) fun _ => .bind (.require _) fun _ => ?_
  cases st with
  | none =>
    refine .bind (forwardPreparedInto_onlyPanics a _ _ _) fun _ => .bind (.ok _) fun _ => ?_
    exact .bind (rmsnormGated_onlyPanics a _ _ _ _ _ _) fun _ => .bind (linear_onlyPanics a _ _ _ _ _ _) fun _ => .ok _
  | some st =>
    refine .bind (forwardPreparedInto_onlyPanics a _ _ _) fun _ => .bind (.ok _) fun _ => ?_
    exact .bind (rmsnormGated_onlyPanics a _ _ _ _ _ _) fun _ => .bind (linear_onlyPanics a _ _ _ _ _ _) fun _ => .ok _

theorem attnForwardImpl_onlyPanics (cfg : AttnConfig F) (w : AttnWeights F) (x : List F) (b t : ℕ) (cos sin : List F)
    (st : Option (AttnState F)) : OnlyPanics (Attention.forwardImpl a cfg w x b t cos sin st) := by
  have hrope (x : List F) (n heads d : ℕ) : OnlyPanics (applyRope a x n heads d cos sin t cfg.rotaryDim) :=
    .bind (.require _) fun _ => .bind (.require _) fun _ => .bind (.require _) fun _ => .ok _
  have hattend (q k v : List F) (start h kvh d : ℕ) (s : F) : OnlyPanics (attend a q k v b t start h kvh d s) :=
    .bind (.require _) fun _ => .bind (.require _) fun _ => .bind (.require _) fun _ => .ok _
  refine .bind (.require _) fun _ => .bind (linear_onlyPanics a _ _ _ _ _ _) fun _ => ?_
  refine .bind (linear_onlyPanics a _ _ _ _ _ _) fun _ => .bind (linear_onlyPanics a _ _ _ _ _ _) fun _ => ?_
  refine .bind (rmsnorm1plus_onlyPanics a _ _ _ _ _) fun _ => .bind (rmsnorm1plus_onlyPanics a _ _ _ _ _) fun _ => ?_
  refine .bind (hrope _ _ _ _) fun _ => .bind (hrope _ _ _ _) fun _ => ?_
  cases st with
  | none =>
    refine .bind (hattend _ _ _ _ _ _ _ _) fun _ => .bind (.ok _) fun _ => ?_
    exact .bind (linear_onlyPanics a _ _ _ _ _ _) fun _ => .ok _
  | some st =>
    refine .bind (.bind (.require _) fun _ => .bind (.require _) fun _ => .ok _) fun _ => ?_
    refine .bind (hattend _ _ _ _ _ _ _ _) fun _ => .bind (.ok _) fun _ => ?_
    exact .bind (linear_onlyPanics a _ _ _ _ _ _) fun _ => .ok _

theorem layerForwardFromMixer_onlyPanics (lw : LayerWeights F) (x ln y : List F) (n : ℕ) (eps : F) :
    OnlyPanics (layerForwardFromMixer a lw x ln y n eps) := by
  refine .bind (.require _) fun _ => .bind (.require _) fun _ => .bind (.require _) fun _ => ?_
  refine .bind (rmsnorm1plus_onlyPanics a _ _ _ _ _) fun _ => .bind (.require _) fun _ => .bind ?_ fun _ => .ok _
  refine .bind (linear_onlyPanics a _ _ _ _ _ _) fun _ => .bind (linear_onlyPanics a _ _ _ _ _ _) fun _ => ?_
  exact linear_onlyPanics a _ _ _ _ _ _

/-! ### One layer -/

/-- The kind of layer that a state belongs to. -/
def MixerState.kind : MixerState F → LayerKind
  | .linearAttention _ => .linearAttention
  | .fullAttention _ => .fullAttention

/-- The kind of layer that a mixer belongs to. -/
def Mixer.kind : Mixer F → LayerKind
  | .linearAttention _ _ => .linearAttention
  | .fullAttention _ _ => .fullAttention

/-- The layer has the weights of its kind. -/
def LayerWeightsAll.HasWeights (lw : LayerWeightsAll F) : Prop :=
  match lw.kind with
  | .linearAttention => lw.gdn ≠ none
  | .fullAttention => lw.attn ≠ none

/-- The layer has its weights, and the state is one of its kind. -/
def LayerWeightsAll.Takes (lw : LayerWeightsAll F) (st : MixerState F) : Prop := lw.HasWeights ∧ st.kind = lw.kind

/-- The layer refuses its state or lacks its weights, and says so: its norm comes before the state is looked at,
and panics over an input of another size. -/
def LayerWeightsAll.Refuses (t : ℕ) (lw : LayerWeightsAll F) (x : List F) (st : MixerState F) : Prop :=
  ¬lw.HasWeights ∨ st.kind ≠ lw.kind ∧ x.length = t * lw.layer.inputLayernorm.length

theorem LayerWeightsAll.mixer_cases (lw : LayerWeightsAll F) (mcfg : ModelConfig F) :
    (∃ e, lw.mixer mcfg = .error e ∧ e.Returned ∧ ¬lw.HasWeights) ∨
      ∃ m, lw.mixer mcfg = .ok m ∧ m.kind = lw.kind ∧ lw.HasWeights := by
  unfold LayerWeightsAll.mixer LayerWeightsAll.HasWeights
  cases lw.kind with
  | linearAttention =>
    cases lw.gdn with
    | none => exact .inl ⟨_, rfl, trivial, fun h => h rfl⟩
    | some w => exact .inr ⟨_, rfl, rfl, Option.some_ne_none w⟩
  | fullAttention =>
    cases lw.attn with
    | none => exact .inl ⟨_, rfl, trivial, fun h => h rfl⟩
    | some w => exact .inr ⟨_, rfl, rfl, Option.some_ne_none w⟩

section Layer

variable {m : Mixer F} {st : MixerState F} (ln : List F) (b t : ℕ) (rope : List F × List F)

theorem mixerForward_refuses (h : st.kind ≠ m.kind) :
    ∃ e, mixerForward a m ln b t (some rope) (some st) = .error e ∧ e.Returned := by
  cases m with
  | linearAttention cfg w =>
    cases st with
    | linearAttention st => exact absurd rfl h
    | fullAttention st => exact ⟨_, rfl, trivial⟩
  | fullAttention cfg w =>
    cases st with
    | linearAttention st => exact ⟨_, rfl, trivial⟩
    | fullAttention st => exact absurd rfl h

theorem mixerForward_onlyPanics (h : st.kind = m.kind) :
    OnlyPanics (mixerForward a m ln b t (some rope) (some st)) := by
  cases m with
  | linearAttention cfg w =>
    cases st with
    | linearAttention st =>
      exact .bind (.bind (gdnForwardImpl_onlyPanics a cfg w ln b t _) fun _ => .ok _) fun _ => .ok _
    | fullAttention st => cases h
  | fullAttention cfg w =>
    cases st with
    | linearAttention st => cases h
    | fullAttention st =>
      exact .bind (.bind (attnForwardImpl_onlyPanics a cfg w ln b t _ _ _) fun _ => .ok _) fun _ => .ok _

/-- The only `Err` of a layer is the one about its state. -/
theorem layerForwardInner_returned_iff (lw : LayerWeights F) (x : List F) (eps : F) :
    (∃ e, layerForwardInner a m lw x 1 t eps (some rope) (some st) = .error e ∧ e.Returned) ↔
      st.kind ≠ m.kind ∧ x.length = t * lw.inputLayernorm.length := by
  constructor
  · rintro ⟨e, h, he⟩
    by_cases hk : st.kind = m.kind
    · have hpanics : OnlyPanics (layerForwardInner a m lw x 1 t eps (some rope) (some st)) :=
        .bind (.require _) fun _ => .bind (rmsnorm1plus_onlyPanics a _ _ _ _ _) fun _ =>
          .bind (mixerForward_onlyPanics a _ _ _ _ hk) fun _ =>
            .bind (layerForwardFromMixer_onlyPanics a _ _ _ _ _ _) fun _ => .ok _
      exact absurd he (hpanics e h)
    · refine ⟨hk, ?_⟩
      unfold layerForwardInner at h
      rcases bind_eq_error_iff.mp h with h | ⟨u, hu, -⟩
      · exact absurd he (OnlyPanics.require _ e h)
      · rw [← Nat.one_mul t]
        exact of_require hu
  · rintro ⟨hk, hx⟩
    rw [← Nat.one_mul t] at hx
    obtain ⟨e, h, he⟩ := mixerForward_refuses a (mapRows (rmsnorm1plusRow a lw.inputLayernorm lw.inputLayernorm.length eps)
      lw.inputLayernorm.length (1 * t) x) 1 t rope hk
    refine ⟨e, ?_, he⟩
    unfold layerForwardInner
    dsimp only
    rw [require_ok hx, ok_bind, rmsnorm1plus_ok a rfl hx, ok_bind, h, error_bind]

end Layer

/-- **What a layer of the loop returns an `Err` for.** -/
theorem layerAt_returned_iff (mcfg : ModelConfig F) (t : ℕ) (rope : List F × List F) (i : ℕ) (lw : LayerWeightsAll F)
    (x : List F) (st : MixerState F) :
    (∃ e, layerAt a mcfg t rope i lw x (some st) = .error e ∧ e.Returned) ↔ lw.Refuses t x st := by
  have hlift : (∃ e, layerAt a mcfg t rope i lw x (some st) = .error e ∧ e.Returned) ↔
      ∃ e, (do
        let mixer ← lw.mixer mcfg
        layerForwardInner a mixer lw.layer x 1 t mcfg.eps (some rope) (some st)) = .error e ∧ e.Returned := by
    constructor
    · rintro ⟨e, h, he⟩
      obtain ⟨e', h', rfl⟩ := mapError_eq_error_iff.mp h
      exact ⟨e', h', he⟩
    · rintro ⟨e, h, he⟩
      exact ⟨.layer i e, mapError_eq_error_iff.mpr ⟨e, h, rfl⟩, he⟩
  rw [hlift]
  unfold LayerWeightsAll.Refuses
  rcases lw.mixer_cases mcfg with ⟨e, hm, he, hw⟩ | ⟨m, hm, hk, hw⟩
  · rw [hm, error_bind]
    exact ⟨fun _ => .inl hw, fun _ => ⟨e, rfl, he⟩⟩
  · rw [hm, ok_bind, layerForwardInner_returned_iff, hk]
    exact ⟨.inr, fun h => h.resolve_left (not_not_intro hw)⟩

/-! ### The stack -/

section Stack

variable {mcfg : ModelConfig F} {t : ℕ} {rope : List F × List F}

/-- A round that ends well. -/
theorem runLayersCached_cons_ok {i : ℕ} {lw : LayerWeightsAll F} {lws : List (LayerWeightsAll F)} {st : MixerState F}
    {states advanced : List (MixerState F)} {h x : List F} {outs : List (List F)}
    (hrun : runLayersCached a mcfg t rope i (lw :: lws) (st :: states) h = (.ok (outs, x), advanced)) :
    ∃ out next outs' advanced', layerAt a mcfg t rope i lw h (some st) = .ok (out, next) ∧
      runLayersCached a mcfg t rope (i + 1) lws states out = (.ok (outs', x), advanced') ∧ outs = out :: outs' ∧
      advanced = next.getD st :: advanced' := by
  rw [runLayersCached] at hrun
  cases hl : layerAt a mcfg t rope i lw h (some st) with
  | error e =>
    rw [hl] at hrun
    cases (Prod.mk.inj hrun).1
  | ok p =>
    rw [hl] at hrun
    obtain ⟨hr, rfl⟩ := Prod.mk.inj hrun
    obtain ⟨⟨outs', x'⟩, hok, hp⟩ := map_eq_ok hr
    obtain ⟨rfl, rfl⟩ := Prod.mk.inj hp
    exact ⟨p.1, p.2, outs', _, rfl, Prod.ext hok rfl, rfl, rfl⟩

/-- A layer fails behind others that did not: their states are advanced, its own and the later ones are not. -/
theorem runLayersCached_stops {lw : LayerWeightsAll F} (post : List (LayerWeightsAll F)) {st : MixerState F}
    (behind : List (MixerState F)) {x : List F} {e : Fault} : ∀ {pre : List (LayerWeightsAll F)}
    {before advanced : List (MixerState F)} {h : List F} {outs : List (List F)} {i : ℕ},
    runLayersCached a mcfg t rope i pre before h = (.ok (outs, x), advanced) → before.length = pre.length →
    layerAt a mcfg t rope (i + pre.length) lw x (some st) = .error e →
    runLayersCached a mcfg t rope i (pre ++ lw :: post) (before ++ st :: behind) h =
      (.error e, advanced ++ st :: behind)
  | [], [], advanced, h, outs, i, hrun, _, hl => by
    obtain ⟨hok, rfl⟩ := Prod.mk.inj hrun
    obtain ⟨-, rfl⟩ := Prod.mk.inj (Except.ok.inj hok)
    rw [List.nil_append, List.nil_append, runLayersCached, show i = i + ([] : List (LayerWeightsAll F)).length from rfl, hl]
  | lw' :: pre, st' :: before, advanced, h, outs, i, hrun, hlen, hl => by
    obtain ⟨out, next, outs', advanced', hfirst, hrest, rfl, rfl⟩ := runLayersCached_cons_ok a hrun
    have hplace : i + 1 + pre.length = i + (lw' :: pre).length := by
      rw [List.length_cons]
      omega
    have ih := runLayersCached_stops post behind hrest (Nat.succ.inj hlen) (hplace ▸ hl)
    rw [List.cons_append, List.cons_append, runLayersCached, hfirst]
    dsimp only
    rw [ih]
    rfl

/-- **Where the loop fails**: behind layers that ended well, at one that did not. -/
theorem runLayersCached_error {e : Fault} : ∀ {lws : List (LayerWeightsAll F)} {states left : List (MixerState F)}
    {h : List F} {i : ℕ}, runLayersCached a mcfg t rope i lws states h = (.error e, left) →
    states.length = lws.length → ∃ pre lw post before st behind outs x advanced, lws = pre ++ lw :: post ∧
      states = before ++ st :: behind ∧ before.length = pre.length ∧
      runLayersCached a mcfg t rope i pre before h = (.ok (outs, x), advanced) ∧
      layerAt a mcfg t rope (i + pre.length) lw x (some st) = .error e ∧ left = advanced ++ st :: behind
  | [], [], left, h, i, hrun, _ => by cases (Prod.mk.inj hrun).1
  | lw :: lws, st :: states, left, h, i, hrun, hlen => by
    rw [runLayersCached] at hrun
    cases hl : layerAt a mcfg t rope i lw h (some st) with
    | error e' =>
      rw [hl] at hrun
      obtain ⟨he, rfl⟩ := Prod.mk.inj hrun
      obtain rfl := Except.error.inj he
      exact ⟨[], lw, lws, [], st, states, [], h, [], rfl, rfl, rfl, rfl, hl, rfl⟩
    | ok p =>
      rw [hl] at hrun
      dsimp only at hrun
      obtain ⟨hr, rfl⟩ := Prod.mk.inj hrun
      cases hrest : runLayersCached a mcfg t rope (i + 1) lws states p.1 with
      | mk r left' =>
        rw [hrest] at hr
        cases r with
        | ok q => cases hr
        | error e' =>
          obtain rfl := Except.error.inj hr
          obtain ⟨pre, lw', post, before, st', behind, outs, x, advanced, rfl, rfl, hcount, hpre, hat, rfl⟩ :=
            runLayersCached_error hrest (Nat.succ.inj hlen)
          refine ⟨lw :: pre, lw', post, st :: before, st', behind, p.1 :: outs, x, p.2.getD st :: advanced, rfl, rfl,
            congrArg Nat.succ hcount, ?_, ?_, rfl⟩
          · rw [runLayersCached, hl]
            dsimp only
            rw [hpre]
            rfl
          · rwa [List.length_cons, Nat.add_comm pre.length, ← Nat.add_assoc]

/-- Full attention never leaves the state it had: it counts the chunk. -/
theorem attention_len {cfg : AttnConfig F} {aw : AttnWeights F} {x out cos sin : List F} {b : ℕ} {st : AttnState F}
    {next : Option (AttnState F)} (h : Attention.forwardImpl a cfg aw x b t cos sin (some st) = .ok (out, next)) :
    ∃ st', next = some st' ∧ st'.len = st.len + t := by
  unfold Attention.forwardImpl at h
  obtain ⟨_, -, h⟩ := bind_eq_ok h
  obtain ⟨_, -, h⟩ := bind_eq_ok h
  obtain ⟨_, -, h⟩ := bind_eq_ok h
  obtain ⟨_, -, h⟩ := bind_eq_ok h
  obtain ⟨_, -, h⟩ := bind_eq_ok h
  obtain ⟨_, -, h⟩ := bind_eq_ok h
  obtain ⟨_, -, h⟩ := bind_eq_ok h
  obtain ⟨_, -, h⟩ := bind_eq_ok h
  obtain ⟨st', happend, h⟩ := bind_eq_ok h
  obtain ⟨_, -, h⟩ := bind_eq_ok h
  obtain ⟨_, hpair, h⟩ := bind_eq_ok h
  obtain rfl := Except.ok.inj hpair
  obtain ⟨_, -, h⟩ := bind_eq_ok h
  refine ⟨st', (Prod.mk.inj (Except.ok.inj h)).2.symm, ?_⟩
  unfold appendKv at happend
  obtain ⟨_, -, happend⟩ := bind_eq_ok happend
  obtain ⟨_, -, happend⟩ := bind_eq_ok happend
  rw [← Except.ok.inj happend]

theorem layerAt_attention {lw : LayerWeightsAll F} {i : ℕ} {x out : List F} {st : MixerState F}
    {next : Option (MixerState F)} (ht : t ≠ 0) (hk : lw.kind = .fullAttention)
    (h : layerAt a mcfg t rope i lw x (some st) = .ok (out, next)) : next.getD st ≠ st := by
  obtain ⟨m, hm, h⟩ := bind_eq_ok (mapError_eq_ok h)
  unfold LayerWeightsAll.mixer at hm
  rw [hk] at hm
  obtain ⟨aw, -, hm⟩ := bind_eq_ok hm
  obtain rfl := Except.ok.inj hm
  unfold layerForwardInner at h
  obtain ⟨_, -, h⟩ := bind_eq_ok h
  obtain ⟨_, -, h⟩ := bind_eq_ok h
  obtain ⟨⟨_, next'⟩, hmix, h⟩ := bind_eq_ok h
  obtain ⟨_, -, h⟩ := bind_eq_ok h
  obtain rfl : next' = next := (Prod.mk.inj (Except.ok.inj h)).2
  cases st with
  | linearAttention st => cases hmix
  | fullAttention st =>
    obtain ⟨⟨_, st'⟩, hwith, hmix⟩ := bind_eq_ok hmix
    obtain rfl := (Prod.mk.inj (Except.ok.inj hmix)).2
    obtain ⟨⟨_, next⟩, himpl, hwith⟩ := bind_eq_ok hwith
    obtain ⟨st'', rfl, hlen⟩ := attention_len a himpl
    obtain rfl : st'' = st' := (Prod.mk.inj (Except.ok.inj hwith)).2
    intro hsame
    have hsame' : st''.len = st.len := congrArg AttnState.len (MixerState.fullAttention.inj hsame)
    omega

/-- A stack with full attention in it is changed by every chunk. -/
theorem runLayersCached_attention (ht : t ≠ 0) : ∀ {lws : List (LayerWeightsAll F)} {states advanced : List (MixerState F)}
    {h x : List F} {outs : List (List F)} {i : ℕ}, runLayersCached a mcfg t rope i lws states h = (.ok (outs, x), advanced) →
    (∃ lw ∈ lws, lw.kind = .fullAttention) → advanced ≠ states
  | [], _, _, _, _, _, _, _, hfull => by
    obtain ⟨lw, hlw, -⟩ := hfull
    exact absurd hlw List.not_mem_nil
  | lw :: lws, [], _, _, _, _, _, hrun, _ => by cases (Prod.mk.inj hrun).1
  | lw :: lws, st :: states, _, h, x, outs, i, hrun, hfull => by
    obtain ⟨out, next, outs', advanced', hfirst, hrest, rfl, rfl⟩ := runLayersCached_cons_ok a hrun
    intro hsame
    obtain ⟨hst, hsts⟩ := List.cons.inj hsame
    obtain ⟨lw', hmem, hk⟩ := hfull
    rcases List.mem_cons.mp hmem with rfl | hmem
    · exact layerAt_attention a ht hk hfirst hst
    · exact runLayersCached_attention ht hrest ⟨lw', hmem, hk⟩ hsts

end Stack

/-! ### The call -/

section Call

variable (mcfg : ModelConfig F) (w : ModelWeights F) (cache : Cache F) (tokens : List ℕ)

/-- The chunk is taken, the layers before the refused one run to their ends, and one of them leaves another state
than it had. -/
def Halfway : Prop :=
  tokens ≠ [] ∧ cache.states.length = w.layers.length ∧
    ∃ e, embed w.embedTokens mcfg.vocab mcfg.hidden tokens = .ok e ∧
      ∃ pre lw post before st behind outs x advanced, w.layers = pre ++ lw :: post ∧
        cache.states = before ++ st :: behind ∧ before.length = pre.length ∧
        runLayersCached a mcfg tokens.length (buildRope a mcfg.attn tokens.length cache.len) 0 pre before e =
          (.ok (outs, x), advanced) ∧
        lw.Refuses tokens.length x st ∧ advanced ≠ before

variable {mcfg w cache tokens}

/-- A call that fails in the loop. -/
theorem forwardCached_stops {e : List F} {f : Fault} {left : List (MixerState F)} (hne : tokens ≠ [])
    (hcount : cache.states.length = w.layers.length) (he : embed w.embedTokens mcfg.vocab mcfg.hidden tokens = .ok e)
    (hrun : runLayersCached a mcfg tokens.length (buildRope a mcfg.attn tokens.length cache.len) 0 w.layers cache.states e =
      (.error f, left)) : forwardCached a mcfg w cache tokens = (.error f, ⟨left, cache.len⟩) := by
  unfold forwardCached
  dsimp only
  rw [if_neg fun h => hne (List.length_eq_zero_iff.mp h), if_neg (not_not_intro hcount), he]
  dsimp only
  rw [hrun]

/-- **What a call that returns `Err` leaves**: the cache, or the cache with its first states advanced. -/
theorem forwardCached_returned {f : Fault} {cache' : Cache F}
    (h : forwardCached a mcfg w cache tokens = (.error f, cache')) (hf : f.Returned) :
    cache'.len = cache.len ∧ (cache' ≠ cache → Halfway a mcfg w cache tokens) := by
  by_cases hne : tokens = []
  · subst hne
    obtain rfl := (Prod.mk.inj h).2
    exact ⟨rfl, fun hc => absurd rfl hc⟩
  by_cases hcount : cache.states.length = w.layers.length
  · cases he : embed w.embedTokens mcfg.vocab mcfg.hidden tokens with
    | error e =>
      unfold forwardCached at h
      dsimp only at h
      rw [if_neg fun h => hne (List.length_eq_zero_iff.mp h), if_neg (not_not_intro hcount), he] at h
      obtain rfl := (Prod.mk.inj h).2
      exact ⟨rfl, fun hc => absurd rfl hc⟩
    | ok e =>
      cases hrun : runLayersCached a mcfg tokens.length (buildRope a mcfg.attn tokens.length cache.len) 0 w.layers
        cache.states e with
      | mk r left =>
        cases r with
        | error f' =>
          rw [forwardCached_stops a hne hcount he hrun] at h
          obtain ⟨hff, rfl⟩ := Prod.mk.inj h
          obtain rfl := Except.error.inj hff
          obtain ⟨pre, lw, post, before, st, behind, outs, x, advanced, hw, hs, hlen, hpre, hat, rfl⟩ :=
            runLayersCached_error a hrun hcount
          refine ⟨rfl, fun hc => ⟨hne, hcount, e, he, pre, lw, post, before, st, behind, outs, x, advanced, hw, hs, hlen,
            hpre, (layerAt_returned_iff a mcfg _ _ _ lw x st).mp ⟨f', hat, hf⟩, ?_⟩⟩
          rintro rfl
          apply hc
          rw [← hs]
        | ok p =>
          unfold forwardCached at h
          dsimp only at h
          rw [if_neg fun h => hne (List.length_eq_zero_iff.mp h), if_neg (not_not_intro hcount), he] at h
          dsimp only at h
          rw [hrun] at h
          have hfinish : OnlyPanics (finish a mcfg w tokens.length e p.1 p.2) :=
            .bind (rmsnorm1plus_onlyPanics a _ _ _ _ _) fun _ => .bind (linear_onlyPanics a _ _ _ _ _ _) fun _ => .ok _
          exact absurd hf (hfinish f (Prod.mk.inj h).1)
  · unfold forwardCached at h
    dsimp only at h
    rw [if_neg fun h => hne (List.length_eq_zero_iff.mp h), if_pos hcount] at h
    obtain rfl := (Prod.mk.inj h).2
    exact ⟨rfl, fun hc => absurd rfl hc⟩

/-- A call that comes to a refused layer returns an `Err`, with the states before it advanced. -/
theorem Halfway.call (h : Halfway a mcfg w cache tokens) :
    ∃ f cache', forwardCached a mcfg w cache tokens = (.error f, cache') ∧ f.Returned ∧ cache' ≠ cache := by
  obtain ⟨hne, hcount, e, he, pre, lw, post, before, st, behind, outs, x, advanced, hw, hs, hlen, hpre, href, hadv⟩ := h
  obtain ⟨f, hat, hf⟩ := (layerAt_returned_iff a mcfg tokens.length (buildRope a mcfg.attn tokens.length cache.len)
    (0 + pre.length) lw x st).mpr href
  have hrun := runLayersCached_stops a post behind hpre hlen hat
  rw [← hw, ← hs] at hrun
  refine ⟨f, _, forwardCached_stops a hne hcount he hrun, hf, fun hc => hadv ?_⟩
  have hstates : advanced ++ st :: behind = before ++ st :: behind := (congrArg Cache.states hc).trans hs
  exact List.append_cancel_right hstates

/-- Where the sizes are right, a layer that does not take its state, behind a full-attention layer, is enough. -/
theorem halfway_of_attention {pre post : List (LayerWeightsAll F)} {lw : LayerWeightsAll F}
    {before behind : List (MixerState F)} {st : MixerState F} (hne : tokens ≠ [])
    (hcount : cache.states.length = w.layers.length) (hembed : w.embedTokens.length = mcfg.vocab * mcfg.hidden)
    (hids : ∀ id ∈ tokens, id < mcfg.vocab) (hw : w.layers = pre ++ lw :: post) (hs : cache.states = before ++ st :: behind)
    (hpre : ∀ lw ∈ pre, lw.Shaped mcfg) (hbefore : List.Forall₂ (LayerWeightsAll.Holds mcfg) pre before)
    (hnorm : lw.layer.inputLayernorm.length = mcfg.hidden) (htakes : ¬lw.Takes st)
    (hfull : ∃ lw ∈ pre, lw.kind = .fullAttention) : Halfway a mcfg w cache tokens := by
  obtain ⟨e, he, hlen⟩ := embed_ok hembed hids
  obtain ⟨outs, x, advanced, hrun, -, -, hx, -⟩ :=
    runLayersCached_resume a 0 hpre hbefore (chunkOf_fits a cache.len hlen)
  have ht : tokens.length ≠ 0 := fun h => hne (List.length_eq_zero_iff.mp h)
  refine ⟨hne, hcount, e, he, pre, lw, post, before, st, behind, outs, x, advanced, hw, hs, hbefore.length_eq.symm, hrun, ?_,
    runLayersCached_attention a ht hrun hfull⟩
  by_cases hweights : lw.HasWeights
  · refine .inr ⟨fun hk => htakes ⟨hweights, hk⟩, ?_⟩
    rw [hnorm]
    exact hx
  · exact .inl hweights

/-- The tokens that have rows. -/
theorem embed_inRange {v : List F} {vocab hidden : ℕ} : ∀ {ids : List ℕ} {e : List F},
    embed v vocab hidden ids = .ok e → ∀ id ∈ ids, id < vocab
  | [], _, _ => fun _ h => absurd h List.not_mem_nil
  | id :: ids, e, h => by
    unfold embed at h
    by_cases hid : vocab ≤ id
    · rw [if_pos hid] at h
      cases h
    · rw [if_neg hid] at h
      obtain ⟨_, -, h⟩ := bind_eq_ok h
      obtain ⟨rest, hrest, -⟩ := bind_eq_ok h
      exact List.forall_mem_cons.mpr ⟨Nat.lt_of_not_le hid, embed_inRange hrest⟩

/-- A layer that ends well took its state. -/
theorem takes_of_ok {t i : ℕ} {rope : List F × List F} {lw : LayerWeightsAll F} {x : List F} {st : MixerState F}
    {r : List F × Option (MixerState F)} (h : layerAt a mcfg t rope i lw x (some st) = .ok r) : lw.Takes st := by
  have hnot : ¬lw.Refuses t x st := by
    intro href
    obtain ⟨e, he, -⟩ := (layerAt_returned_iff a mcfg t rope i lw x st).mpr href
    rw [h] at he
    cases he
  have hx : x.length = t * lw.layer.inputLayernorm.length := by
    obtain ⟨m, -, h⟩ := bind_eq_ok (mapError_eq_ok h)
    unfold layerForwardInner at h
    obtain ⟨u, hu, -⟩ := bind_eq_ok h
    rw [← Nat.one_mul t]
    exact of_require hu
  obtain ⟨hweights, hkind⟩ := not_or.mp hnot
  exact ⟨not_not.mp hweights, by_contra fun hk => hkind ⟨hk, hx⟩⟩

variable (mcfg w cache tokens)

/-- The call comes, behind its first layer, to one that does not take its state. -/
structure Exposed : Prop where
  nonempty : tokens ≠ []
  count : cache.states.length = w.layers.length
  inRange : ∀ id ∈ tokens, id < mcfg.vocab
  first : ∃ lw st, w.layers[0]? = some lw ∧ cache.states[0]? = some st ∧ lw.Takes st
  later : ∃ k lw st, k ≠ 0 ∧ w.layers[k]? = some lw ∧ cache.states[k]? = some st ∧ ¬lw.Takes st

/-- The sizes are right up to a layer that does not take its state, and full attention comes before it. -/
structure Spoiled : Prop where
  nonempty : tokens ≠ []
  count : cache.states.length = w.layers.length
  inRange : ∀ id ∈ tokens, id < mcfg.vocab
  embedTokens : w.embedTokens.length = mcfg.vocab * mcfg.hidden
  layers : ∃ pre lw post before st behind, w.layers = pre ++ lw :: post ∧ cache.states = before ++ st :: behind ∧
    (∀ lw ∈ pre, lw.Shaped mcfg) ∧ List.Forall₂ (LayerWeightsAll.Holds mcfg) pre before ∧
    lw.layer.inputLayernorm.length = mcfg.hidden ∧ ¬lw.Takes st ∧ ∃ lw ∈ pre, lw.kind = .fullAttention

variable {mcfg w cache tokens}

theorem Halfway.exposed (h : Halfway a mcfg w cache tokens) : Exposed mcfg w cache tokens := by
  obtain ⟨hne, hcount, e, he, pre, lw, post, before, st, behind, outs, x, advanced, hw, hs, hlen, hpre, href, hadv⟩ := h
  have hat : w.layers[pre.length]? = some lw := by
    rw [hw, List.getElem?_append_right (Nat.le_refl _), Nat.sub_self]
    rfl
  have hstate : cache.states[pre.length]? = some st := by
    rw [hs, ← hlen, List.getElem?_append_right (Nat.le_refl _), Nat.sub_self]
    rfl
  have hrefused : ¬lw.Takes st := by
    rintro ⟨hweights, hkind⟩
    rcases href with hnone | ⟨hk, -⟩
    · exact hnone hweights
    · exact hk hkind
  match pre, before with
  | [], [] => exact absurd (Prod.mk.inj hpre).2.symm hadv
  | lw0 :: pre, st0 :: before =>
    obtain ⟨out, next, outs', advanced', hfirst, -⟩ := runLayersCached_cons_ok a hpre
    refine ⟨hne, hcount, embed_inRange he, ⟨lw0, st0, ?_, ?_, takes_of_ok a hfirst⟩,
      ⟨_, lw, st, Nat.succ_ne_zero _, hat, hstate, hrefused⟩⟩
    · rw [hw]
      rfl
    · rw [hs]
      rfl

theorem Spoiled.halfway (h : Spoiled mcfg w cache tokens) : Halfway a mcfg w cache tokens := by
  obtain ⟨pre, lw, post, before, st, behind, hw, hs, hpre, hbefore, hnorm, htakes, hfull⟩ := h.layers
  exact halfway_of_attention a h.nonempty h.count h.embedTokens h.inRange hw hs hpre hbefore hnorm htakes hfull

/-- **When a failed call leaves the cache alone**: where it does not come, behind its first layer, to one that does
not take its state. Behind full attention such a layer always leaves a changed cache. The length is always left
alone. -/
theorem forwardCached_atomic (mcfg : ModelConfig F) (w : ModelWeights F) (cache : Cache F) (tokens : List ℕ) :
    (¬Exposed mcfg w cache tokens → ∀ f cache', forwardCached a mcfg w cache tokens = (.error f, cache') →
      f.Returned → cache' = cache) ∧
    (Spoiled mcfg w cache tokens → ∃ f cache', forwardCached a mcfg w cache tokens = (.error f, cache') ∧
      f.Returned ∧ cache' ≠ cache) ∧
    ∀ f cache', forwardCached a mcfg w cache tokens = (.error f, cache') → f.Returned → cache'.len = cache.len := by
  refine ⟨fun h f cache' hrun hf => ?_, fun h => (h.halfway a).call, fun f cache' hrun hf =>
    (forwardCached_returned a hrun hf).1⟩
  by_contra hc
  exact h (Halfway.exposed a ((forwardCached_returned a hrun hf).2 hc))

end Call

/-! ### A cache of another model -/

/-- The layers of the small model the other way round: full attention, then linear attention. -/
def turnedWeights : ModelWeights ℤ := { smallWeights with layers := smallWeights.layers.reverse }

/-- A cache of two full-attention layers. -/
def foreignCache : Cache ℤ := ⟨[.fullAttention AttnState.new, .fullAttention AttnState.new], 0⟩

/-- The first layer has read the token when the second one is refused. -/
theorem forwardCached_not_atomic : ¬∀ (mcfg : ModelConfig ℤ) (w : ModelWeights ℤ) (cache : Cache ℤ) (tokens : List ℕ)
    (f : Fault) (cache' : Cache ℤ), forwardCached intArith mcfg w cache tokens = (.error f, cache') → f.Returned →
      cache' = cache := by
  intro h
  have hfails : (forwardCached intArith smallConfig turnedWeights foreignCache [0]).1 =
      .error (.layer 1 .fullStateForLinear) := rfl
  have hsame := h smallConfig turnedWeights foreignCache [0] _ _ (Prod.ext hfails rfl) trivial
  have hlen := congrArg (fun c => c.states.map fun st => match st with
    | .linearAttention _ => 0
    | .fullAttention st => st.len) hsame
  exact absurd hlen (by decide)

end Qwen
end Siphon
