/-
# Exchanging one assistant message

A conversation with an assistant message of plain text in it renders to a text
around the block of that message, and what stands around does not depend on
the message (`render_around`): the system block, the scan and the other blocks
look at its role only.
-/
import Siphon.Chat.Template

namespace Siphon
namespace Chat

open Fallible
open Pyjson (LowerExp)

variable {lowerExp : LowerExp}

/-- An assistant message with a text for its content. -/
structure Message.Says (m : Message) (s : List Char) : Prop where
  role : m.role = .assistant
  content : m.content = .text s

/-- The block of such a message. -/
def assistantBlock (lowerExp : LowerExp) (afterQuery : Bool) (m : Message) (s : List Char) : List Char :=
  imStart ++ "assistant\n".toList ++ assistantText lowerExp afterQuery m (jinjaTrim s) ++ imEnd ++ ['\n']

/-! ### The counts of the system block and the scan -/

theorem renderPart_counts {isSystem avi : Bool} {k k' : Counts} {p : Part} {t : List Char}
    (h : renderPart false isSystem avi k p = .ok (t, k')) : k' = k := by
  cases p with
  | text s =>
    obtain ⟨-, rfl⟩ : s = t ∧ k = k' := by simpa [renderPart] using h
    rfl
  | image =>
    cases isSystem with
    | true => cases h
    | false => exact (Prod.mk.inj (Except.ok.inj h)).2.symm
  | video =>
    cases isSystem with
    | true => cases h
    | false => exact (Prod.mk.inj (Except.ok.inj h)).2.symm
  | other => cases h

theorem renderParts_counts {isSystem avi : Bool} {ps : List Part} : ∀ {out t : List Char} {k k' : Counts},
    renderParts false isSystem avi ps out k = .ok (t, k') → k' = k := by
  induction ps with
  | nil =>
    intro out t k k' h
    exact (Prod.mk.inj (Except.ok.inj h)).2.symm
  | cons p ps ih =>
    intro out t k k' h
    obtain ⟨⟨u, k₁⟩, h1, h2⟩ := bind_eq_ok h
    rw [ih h2, renderPart_counts h1]

/-- Without counting, the counts stay. -/
theorem renderContent_counts {isSystem avi : Bool} {c : Content} {k k' : Counts} {t : List Char}
    (h : renderContent false isSystem avi c k = .ok (t, k')) : k' = k := by
  cases c with
  | text s => exact (Prod.mk.inj (Except.ok.inj h)).2.symm
  | none => exact (Prod.mk.inj (Except.ok.inj h)).2.symm
  | unsupported => cases h
  | parts ps => exact renderParts_counts h

theorem systemContent_counts {req : Request} {k k' : Counts} {c : Option (List Char)}
    (h : systemContent req k = .ok (c, k')) : k' = k := by
  unfold systemContent at h
  split at h
  · exact (Prod.mk.inj (Except.ok.inj h)).2.symm
  · next m _ _ =>
    by_cases hr : m.role = .system
    · rw [if_pos hr] at h
      obtain ⟨⟨t, k₁⟩, h1, h2⟩ := bind_eq_ok h
      have hk : k' = k₁ := (Prod.mk.inj (Except.ok.inj h2)).2.symm
      rw [hk]
      exact renderContent_counts h1
    · rw [if_neg hr] at h
      exact (Prod.mk.inj (Except.ok.inj h)).2.symm

/-! ### The parts that look at the role only -/

section Exchange

variable {m m' : Message} {s s' : List Char} {pre post : List Message}

theorem systemContent_exchange (hm : m.Says s) (hm' : m'.Says s') {tools : List Pyjson.Value} {opts : Options}
    (k : Counts) :
    systemContent ⟨pre ++ m :: post, tools, opts⟩ k = systemContent ⟨pre ++ m' :: post, tools, opts⟩ k := by
  cases pre with
  | nil =>
    have h : ∀ {x : Message} {u : List Char}, x.Says u → systemContent ⟨x :: post, tools, opts⟩ k = .ok (none, k) := by
      intro x u hx
      exact if_neg (by rw [hx.role]; exact Role.noConfusion)
    exact (h hm).trans (h hm').symm
  | cons x pre => rfl

theorem lastQuery_exchange (hm : m.Says s) (hm' : m'.Says s') {avi : Bool} {k : Counts} (a b : List Message) :
    lastQuery avi k (a ++ m :: b) = lastQuery avi k (a ++ m' :: b) := by
  induction a with
  | nil =>
    have h : ∀ {x : Message} {u : List Char}, x.Says u → lastQuery avi k (x :: b) = lastQuery avi k b := by
      intro x u hx
      rw [lastQuery, if_neg (by rw [hx.role]; exact Role.noConfusion)]
    exact (h hm).trans (h hm').symm
  | cons x a ih =>
    rw [List.cons_append, List.cons_append, lastQuery, lastQuery, ih]
    simp only [List.length_append, List.length_cons]

theorem queryIndex_exchange (hm : m.Says s) (hm' : m'.Says s') {tools : List Pyjson.Value} {opts : Options}
    (k : Counts) :
    queryIndex ⟨pre ++ m :: post, tools, opts⟩ k = queryIndex ⟨pre ++ m' :: post, tools, opts⟩ k := by
  unfold queryIndex
  simp only [List.reverse_append, List.reverse_cons, List.append_assoc, List.singleton_append]
  rw [lastQuery_exchange hm hm']

end Exchange

/-! ### The main loop -/

section Loop

variable {avi : Bool} {q : ℕ}

/-- What was written before stays in front. -/
theorem renderMessages_out {ms : List Message} : ∀ (i : ℕ) (before : Option Role) (out : List Char) (k : Counts),
    renderMessages lowerExp avi q i before ms out k =
      (renderMessages lowerExp avi q i before ms [] k).map fun x => (out ++ x.1, x.2) := by
  induction ms with
  | nil =>
    intro i before out k
    simp [renderMessages, Except.map]
  | cons m ms ih =>
    intro i before out k
    rw [renderMessages, renderMessages]
    cases hc : renderContent true false avi m.content k with
    | error e => rfl
    | ok c =>
      show (messageText _ _ _ _ _ _ _ >>= _) = Except.map _ (messageText _ _ _ _ _ _ _ >>= _)
      cases ht : messageText lowerExp q i before (ms.head?.map (·.role)) m (jinjaTrim c.1) with
      | error e => rfl
      | ok t =>
        show renderMessages lowerExp avi q (i + 1) (some m.role) ms (out ++ t) c.2 =
          Except.map _ (renderMessages lowerExp avi q (i + 1) (some m.role) ms ([] ++ t) c.2)
        rw [ih _ _ (out ++ t), ih _ _ ([] ++ t)]
        cases renderMessages lowerExp avi q (i + 1) (some m.role) ms [] c.2 with
        | error e => rfl
        | ok x => simp [Except.map]

/-- The loop writes one text around the block of an assistant message, or
fails, whatever the message. -/
theorem renderMessages_around (lowerExp : LowerExp) (avi : Bool) (q : ℕ) (pre post : List Message) :
    ∀ (i : ℕ) (before : Option Role) (out : List Char) (k : Counts),
    (∃ e, ∀ m s, Message.Says m s → renderMessages lowerExp avi q i before (pre ++ m :: post) out k = .error e) ∨
    ∃ a b k', ∀ m s, Message.Says m s → renderMessages lowerExp avi q i before (pre ++ m :: post) out k =
      .ok (a ++ assistantBlock lowerExp (q < i + pre.length) m s ++ b, k') := by
  induction pre with
  | nil =>
    intro i before out k
    have hstep : ∀ m s, Message.Says m s → renderMessages lowerExp avi q i before (m :: post) out k =
        renderMessages lowerExp avi q (i + 1) (some .assistant) post (out ++ assistantBlock lowerExp (q < i) m s) k := by
      intro m s hm
      rw [renderMessages, hm.content]
      show (messageText _ _ _ _ _ _ _ >>= _) = _
      rw [messageText, hm.role]
      rfl
    cases hp : renderMessages lowerExp avi q (i + 1) (some .assistant) post [] k with
    | error e =>
      refine .inl ⟨e, fun m s hm => ?_⟩
      rw [List.nil_append, hstep m s hm, renderMessages_out, hp]
      rfl
    | ok x =>
      refine .inr ⟨out, x.1, x.2, fun m s hm => ?_⟩
      rw [List.nil_append, hstep m s hm, renderMessages_out, hp]
      rfl
  | cons x pre ih =>
    intro i before out k
    have hnext : ∀ m s, Message.Says m s → (pre ++ m :: post).head?.map (·.role) =
        some ((pre.head?.map (·.role)).getD .assistant) := by
      intro m s hm
      cases pre with
      | nil => exact congrArg some hm.role
      | cons y pre => rfl
    cases hc : renderContent true false avi x.content k with
    | error e =>
      refine .inl ⟨e, fun m s _ => ?_⟩
      rw [List.cons_append, renderMessages, hc]
      rfl
    | ok c =>
      cases ht : messageText lowerExp q i before (some ((pre.head?.map (·.role)).getD .assistant)) x (jinjaTrim c.1) with
      | error e =>
        refine .inl ⟨e, fun m s hm => ?_⟩
        rw [List.cons_append, renderMessages, hc, hnext m s hm]
        show (messageText _ _ _ _ _ _ _ >>= _) = _
        rw [ht]
        rfl
      | ok t =>
        have hstep : ∀ m s, Message.Says m s → renderMessages lowerExp avi q i before (x :: pre ++ m :: post) out k =
            renderMessages lowerExp avi q (i + 1) (some x.role) (pre ++ m :: post) (out ++ t) c.2 := by
          intro m s hm
          rw [List.cons_append, renderMessages, hc, hnext m s hm]
          show (messageText _ _ _ _ _ _ _ >>= _) = _
          rw [ht]
          rfl
        rcases ih (i + 1) (some x.role) (out ++ t) c.2 with ⟨e, he⟩ | ⟨a, b, k', ho⟩
        · exact .inl ⟨e, fun m s hm => (hstep m s hm).trans (he m s hm)⟩
        · refine .inr ⟨a, b, k', fun m s hm => (hstep m s hm).trans ?_⟩
          rw [ho m s hm, List.length_cons, show i + 1 + pre.length = i + (pre.length + 1) by omega]

end Loop

/-! ### The conversation -/

/-- The message at an index stands after the last user query. -/
def AfterQuery (req : Request) (i : ℕ) : Prop := ∃ q, queryIndex req ⟨0, 0⟩ = .ok q ∧ q < i

/-- A conversation that renders, renders with every text in the place of an
assistant message after the last user query, to the same text around its
block. -/
theorem render_around {pre post : List Message} {tools : List Pyjson.Value} {opts : Options} {m : Message}
    {s : List Char} {R : Rendered} (hm : m.Says s) (hq : AfterQuery ⟨pre ++ m :: post, tools, opts⟩ pre.length)
    (hR : render lowerExp ⟨pre ++ m :: post, tools, opts⟩ = .ok R) :
    ∃ a b, ∀ m' s', Message.Says m' s' → render lowerExp ⟨pre ++ m' :: post, tools, opts⟩ =
      .ok ⟨a ++ assistantBlock lowerExp true m' s' ++ b, R.counts⟩ := by
  obtain ⟨q, hq, hlt⟩ := hq
  unfold render at hR
  rw [if_neg (by simp)] at hR
  obtain ⟨⟨c, k⟩, h1, h2⟩ := bind_eq_ok hR
  obtain ⟨q', h3, h4⟩ := bind_eq_ok h2
  obtain ⟨⟨out', k'⟩, h5, h6⟩ := bind_eq_ok h4
  obtain rfl : k = ⟨0, 0⟩ := systemContent_counts h1
  obtain rfl : q' = q := Except.ok.inj (h3.symm.trans hq)
  rcases renderMessages_around lowerExp opts.addVisionId q' pre post 0 none (systemBlock lowerExp tools c) ⟨0, 0⟩ with
    ⟨e, he⟩ | ⟨a, b, k₂, ho⟩
  · rw [he m s hm] at h5
    cases h5
  · have hk : k' = k₂ := (Prod.mk.inj (Except.ok.inj (h5.symm.trans (ho m s hm)))).2
    refine ⟨a, b ++ generationPrompt opts, fun m' s' hm' => ?_⟩
    have hflag : decide (q' < 0 + pre.length) = true := decide_eq_true (by omega)
    unfold render
    rw [if_neg (by simp), systemContent_exchange hm' hm, h1]
    show (queryIndex _ _ >>= _) = _
    rw [queryIndex_exchange hm' hm, h3]
    show (renderMessages _ _ _ _ _ _ _ _ >>= _) = _
    rw [ho m' s' hm', hflag]
    rw [← Except.ok.inj h6, hk]
    simp only [bind, Except.bind, List.append_assoc]

end Chat
end Siphon
