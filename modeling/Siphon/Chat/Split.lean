/-
# Two ways to split an answer

The template and the parser both take the reasoning off an answer. The parser
cuts at the first `</think>` and trims what follows; the template trims the
whole text first, cuts the content off at the last `</think>`, and then takes
only newlines off its beginning. The reasoning is the same either way
(`splitReasoning_reasoning`). The content is the same exactly if there is no
second `</think>`, and no white space but newlines at the beginning of what
follows the first (`CleanClose`, `split_alike_iff`).
-/
import Siphon.Chat.RoundTrip

namespace Siphon
namespace Chat

open Search
open Pyjson (LowerExp Value)

variable {lowerExp : LowerExp}

/-- What follows the first `</think>` has no other, and begins, behind its
newlines, with no white space, unless it is nothing but white space. -/
def CleanClose (t : List Char) : Prop :=
  ∀ h u, t.dropInfix? thinkClose = some (h, u) → ¬thinkClose <:+: u ∧
    ∀ c r, u.dropWhile (· = '\n') = c :: r → isPythonSpace c → ∀ d ∈ u, isPythonSpace d

/-- An answer that was not taken apart. -/
def said (t : List Char) : Message := ⟨.assistant, .text t, none, []⟩

/-! ### Markers and white space -/

theorem open_notMem {l : List Char} (h : ∀ c ∈ l, isPythonSpace c) : '<' ∉ l := fun hc =>
  absurd (h _ hc) (by decide)

theorem close_notMem {l : List Char} (h : ∀ c ∈ l, isPythonSpace c) : '>' ∉ l := fun hc =>
  absurd (h _ hc) (by decide)

/-- White space around a text holds no part of a closing marker. -/
theorem thinkClose_isInfix {l t r : List Char} (hl : ∀ c ∈ l, isPythonSpace c) (hr : ∀ c ∈ r, isPythonSpace c)
    (h : thinkClose <:+: l ++ t ++ r) : thinkClose <:+: t := by
  obtain ⟨c, d, he⟩ := h
  obtain ⟨e, -, h1⟩ := occurrence_left (p := "</think".toList) (close_notMem hr) he.symm
  obtain ⟨f, -, h2⟩ := occurrence_right (p := "/think>".toList) (open_notMem hl) h1
  exact ⟨f, e, h2.symm⟩

theorem thinkClose_infix_jinjaTrim {t : List Char} (h : thinkClose <:+: t) : thinkClose <:+: jinjaTrim t := by
  obtain ⟨l, r, he, hl, hr, -⟩ := strip_spec isPythonSpace t
  rw [he] at h
  exact thinkClose_isInfix hl hr h

/-- The first marker of a text is the first of the trimmed one. -/
theorem dropInfix_trimmed {t h u : List Char} (ht : t.dropInfix? thinkClose = some (h, u)) :
    ∃ l r h' u', (∀ c ∈ l, isPythonSpace c) ∧ (∀ c ∈ r, isPythonSpace c) ∧ h = l ++ h' ∧ u = u' ++ r ∧
      (jinjaTrim t).dropInfix? thinkClose = some (h', u') := by
  obtain ⟨l, r, he, hl, hr, -⟩ := strip_spec isPythonSpace t
  have hin : thinkClose <:+: jinjaTrim t :=
    thinkClose_infix_jinjaTrim ⟨h, u, (dropInfix_eq_some.mp ht).1.symm⟩
  obtain ⟨⟨h', u'⟩, hs⟩ := Option.isSome_iff_exists.mp (dropInfix_isSome.mpr hin)
  have hclear : Clear thinkClose l (jinjaTrim t ++ r) := clear_of_head (open_notMem hl)
  have hwhole := dropInfix_append_left (dropInfix_append hs r) hclear
  rw [← List.append_assoc, show l ++ jinjaTrim t ++ r = t from he.symm, ht] at hwhole
  obtain ⟨h1, h2⟩ := Prod.mk.inj (Option.some.inj hwhole)
  exact ⟨l, r, h', u', hl, hr, h1, h2, hs⟩

/-! ### The reasoning -/

/-- Behind the last opening marker, trimmed. -/
def lastThought (h : List Char) : List Char := jinjaTrim ((afterLast thinkOpen h).getD h)

theorem lastThought_append {r : List Char} (hr : ∀ c ∈ r, isPythonSpace c) (h : List Char) :
    lastThought (h ++ r) = lastThought h := by
  have key : ∀ x : List Char, jinjaTrim (x ++ r) = jinjaTrim x := by
    intro x
    have := strip_append (f := isPythonSpace) (l := []) (t := x) (fun _ hc => nomatch hc) hr
    simpa [jinjaTrim] using this
  unfold lastThought
  rw [show thinkOpen = "<think".toList ++ ['>'] from rfl, afterLast_append (close_notMem hr)]
  cases afterLast ("<think".toList ++ ['>']) h with
  | none => exact key h
  | some b => exact key b

theorem lastThought_append_left {l : List Char} (hl : ∀ c ∈ l, isPythonSpace c) (h : List Char) :
    lastThought (l ++ h) = lastThought h := by
  unfold lastThought
  rw [show thinkOpen = '<' :: "think>".toList from rfl, afterLast_append_left (open_notMem hl)]
  cases afterLast ('<' :: "think>".toList) h with
  | none =>
    have := strip_append (f := isPythonSpace) (r := []) (t := h) hl (fun _ hc => nomatch hc)
    simpa [jinjaTrim] using this
  | some b => rfl

/-- Newlines at the end make no difference, nor at the beginning of what is
found. -/
theorem lastThought_newlines (h : List Char) :
    jinjaTrim (((afterLast thinkOpen (h.rdropWhile (· = '\n'))).getD (h.rdropWhile (· = '\n'))).dropWhile (· = '\n')) =
      lastThought h := by
  have h1 : ∀ x : List Char, jinjaTrim (x.dropWhile (· = '\n')) = jinjaTrim x := fun x =>
    strip_dropWhile fun _ hc => isPythonSpace_newline hc
  have hr : ∀ c ∈ h.rtakeWhile (· = '\n'), isPythonSpace c := by
    intro c hc
    have hn := List.mem_rtakeWhile_imp (p := fun c => decide (c = '\n')) hc
    exact isPythonSpace_newline hn
  have h2 := lastThought_append hr (h.rdropWhile (· = '\n'))
  rw [List.rdropWhile_append_rtakeWhile] at h2
  rw [h1]
  exact h2.symm

/-- Both ways find the same reasoning. -/
theorem splitReasoning_reasoning {t h u : List Char} (ht : t.dropInfix? thinkClose = some (h, u)) :
    jinjaTrim (splitReasoning none (jinjaTrim t)).1 = lastThought h := by
  obtain ⟨l, r, h', u', hl, -, rfl, -, hs⟩ := dropInfix_trimmed ht
  unfold splitReasoning
  simp only
  rw [hs]
  exact (lastThought_newlines h').trans (lastThought_append_left hl h').symm

/-! ### The content -/

/-- The end of a trimmed text does not end in white space. -/
theorem tight_tail {t h u : List Char} (hs : (jinjaTrim t).dropInfix? thinkClose = some (h, u)) :
    ∀ x v, u = v ++ [x] → isPythonSpace x = false := by
  rintro x v rfl
  have he := (dropInfix_eq_some.mp hs).1
  exact (tight_jinjaTrim t).2 x (h ++ thinkClose ++ v) (by rw [he]; simp only [List.append_assoc])

/-- Newlines alone are as good as trimming for a text that does not end in
white space, exactly if no other white space stands in front. -/
theorem dropWhile_eq_jinjaTrim_iff {u r : List Char} (hu : ∀ x v, u = v ++ [x] → isPythonSpace x = false)
    (hr : ∀ c ∈ r, isPythonSpace c) :
    u.dropWhile (· = '\n') = jinjaTrim u ↔
      ∀ c v, (u ++ r).dropWhile (· = '\n') = c :: v → isPythonSpace c → ∀ d ∈ u ++ r, isPythonSpace d := by
  rcases List.eq_nil_or_concat u with rfl | ⟨v, x, rfl⟩
  · refine ⟨fun _ _ _ _ _ => hr, fun _ => rfl⟩
  have hx : isPythonSpace x = false := hu x v (List.concat_eq_append ..)
  rw [List.concat_eq_append]
  have hxn : ¬decide (x = '\n') = true := by
    intro h
    rw [isPythonSpace_newline h] at hx
    cases hx
  -- the last letter stays, so something is left
  obtain ⟨c, w, hw⟩ : ∃ c w, (v ++ [x]).dropWhile (· = '\n') = c :: w := by
    refine List.exists_cons_of_ne_nil fun h => ?_
    rw [List.dropWhile_eq_nil_iff] at h
    exact hxn (h x (by simp))
  have hlast : ∀ y z, c :: w = z ++ [y] → isPythonSpace y = false := by
    intro y z h
    obtain ⟨a, ha⟩ := List.dropWhile_suffix (p := fun c => decide (c = '\n')) (l := v ++ [x])
    rw [hw, h] at ha
    have hxy : y = x := by
      have := congrArg List.getLast? ha
      rw [← List.append_assoc, List.getLast?_concat, List.getLast?_concat, Option.some.injEq] at this
      exact this
    rw [hxy]
    exact hx
  have htrim : jinjaTrim (v ++ [x]) = jinjaTrim (c :: w) := by
    rw [← hw]
    exact (strip_dropWhile fun _ hc => isPythonSpace_newline hc).symm
  have hdrop : (v ++ [x] ++ r).dropWhile (· = '\n') = c :: (w ++ r) := by
    rw [List.dropWhile_append, hw]
    rfl
  rw [hw, hdrop, htrim]
  by_cases hc : isPythonSpace c = true
  · constructor
    · intro h
      have hne := (tight_jinjaTrim (c :: w)).1 c w h.symm
      rw [hc] at hne
      cases hne
    · intro h
      have hxs := h c (w ++ r) rfl hc x (by simp)
      rw [hx] at hxs
      cases hxs
  · rw [Bool.not_eq_true] at hc
    have ht : Tight isPythonSpace (c :: w) := by
      refine ⟨?_, hlast⟩
      intro y z h
      rw [← (List.cons.inj h).1]
      exact hc
    refine ⟨fun _ d z h hd => ?_, fun _ => (strip_of_tight ht).symm⟩
    rw [← (List.cons.inj h).1, hc] at hd
    cases hd

/-- Both ways find the same content exactly for a clean text. -/
theorem splitReasoning_content_iff {t h u : List Char} (ht : t.dropInfix? thinkClose = some (h, u)) :
    (splitReasoning none (jinjaTrim t)).2 = jinjaTrim u ↔ CleanClose t := by
  obtain ⟨l, r, h', u', hl, hr, rfl, rfl, hs⟩ := dropInfix_trimmed ht
  have htail : (splitReasoning none (jinjaTrim t)).2 =
      ((afterLast thinkClose (jinjaTrim t)).getD (jinjaTrim t)).dropWhile (· = '\n') := by
    unfold splitReasoning
    simp only
    rw [hs]
  have htrim : jinjaTrim (u' ++ r) = jinjaTrim u' := by
    have := strip_append (f := isPythonSpace) (l := []) (t := u') (fun _ hc => nomatch hc) hr
    simpa [jinjaTrim] using this
  have hclean : CleanClose t ↔ ¬thinkClose <:+: u' ++ r ∧
      ∀ c v, (u' ++ r).dropWhile (· = '\n') = c :: v → isPythonSpace c → ∀ d ∈ u' ++ r, isPythonSpace d := by
    constructor
    · exact fun hc => hc _ _ ht
    · intro hc h u he
      obtain ⟨-, rfl⟩ := Prod.mk.inj (Option.some.inj (ht.symm.trans he))
      exact hc
  have hin : thinkClose <:+: jinjaTrim t := dropInfix_isSome.mp (by rw [hs]; rfl)
  rw [htail, htrim, hclean]
  by_cases hsecond : thinkClose <:+: u' ++ r
  · -- the parser keeps the second marker in the content, the template does not
    refine ⟨fun heq => absurd ?_ (not_not.mpr hin), fun hc => absurd hsecond hc.1⟩
    have hu : thinkClose <:+: jinjaTrim u' := by
      have h1 : thinkClose <:+: [] ++ u' ++ r := hsecond
      exact thinkClose_infix_jinjaTrim (thinkClose_isInfix (l := []) (fun _ hc => nomatch hc) hr h1)
    obtain ⟨b, hb⟩ : ∃ b, afterLast thinkClose (jinjaTrim t) = some b :=
      Option.ne_none_iff_exists'.mp fun hn => afterLast_eq_none.mp hn hin
    rw [hb, Option.getD_some] at heq
    rw [← heq] at hu
    have hb' : thinkClose <:+: b := hu.trans (List.dropWhile_suffix _).isInfix
    exact absurd hb' (not_infix_afterLast (by decide) hb)
  · have hu : ¬thinkClose <:+: u' := fun h1 => hsecond (h1.trans (List.prefix_append u' r).isInfix)
    have hlast : afterLast thinkClose (jinjaTrim t) = some u' := by
      rw [(dropInfix_eq_some.mp hs).1]
      refine afterLast_of_clear (x := '<') (p := "/think>".toList) (Clear.append ?_ ?_) h'
      · exact clear_of_literal (by decide)
      · exact clear_of_not_infix hu
    rw [hlast, Option.getD_some, dropWhile_eq_jinjaTrim_iff (tight_tail hs) hr]
    exact ⟨fun h1 => ⟨hsecond, h1⟩, fun h1 => h1.2⟩

/-! ### The whole text -/

/-- What the parser reads from a text without calls. -/
theorem parseAssistant_said {t : List Char} (ht : ¬"<tool_call>".toList <:+: t) :
    Chatparse.parseAssistant t = some ⟨(Chatparse.splitThink t).1, jinjaTrim (Chatparse.splitThink t).2, []⟩ := by
  have hsuf : (Chatparse.splitThink t).2 <:+: t := by
    unfold Chatparse.splitThink
    cases hs : t.dropInfix? thinkClose with
    | none => exact List.infix_rfl
    | some p =>
      have h1 : p.2.dropWhile (· = '\n') <:+: p.2 := (List.dropWhile_suffix _).isInfix
      refine h1.trans ?_
      rw [(dropInfix_eq_some.mp (show t.dropInfix? thinkClose = some (p.1, p.2) from hs)).1]
      exact (List.suffix_append _ _).isInfix
  have hn : (Chatparse.splitThink t).2.dropInfix? "<tool_call>".toList = none :=
    dropInfix_eq_none.mpr fun h => ht (h.trans hsuf)
  unfold Chatparse.parseAssistant Chatparse.parseToolCalls
  dsimp only
  rw [Chatparse.parseCalls, hn]
  rfl

theorem assistantText_said {m : Message} (hm : m.toolCalls = []) (c : List Char) :
    assistantText lowerExp true m c = thinkOpen ++ ['\n'] ++ jinjaTrim (splitReasoning m.reasoning c).1 ++ ['\n'] ++
      thinkClose ++ ['\n', '\n'] ++ (splitReasoning m.reasoning c).2 := by
  unfold assistantText
  rw [hm]
  show (if true = true then _ else _) ++ [] = _
  rw [if_pos rfl, List.append_nil]
  rfl

/-- The text for an answer and for the message rebuilt from it are the same
exactly for a clean answer. -/
theorem assistantText_ofReply_iff (lowerExp : LowerExp) (t : List Char) :
    assistantText lowerExp true
        (ofReply ⟨(Chatparse.splitThink t).1, jinjaTrim (Chatparse.splitThink t).2, []⟩)
        (jinjaTrim (jinjaTrim (Chatparse.splitThink t).2)) =
      assistantText lowerExp true (said t) (jinjaTrim t) ↔ CleanClose t := by
  rw [assistantText_said rfl, assistantText_said rfl, jinjaTrim_jinjaTrim]
  cases hs : t.dropInfix? thinkClose with
  | none =>
    have hsplit : Chatparse.splitThink t = (none, t) := by
      unfold Chatparse.splitThink
      rw [hs]
    rw [hsplit]
    refine ⟨fun _ h u he => ?_, fun _ => rfl⟩
    rw [hs] at he
    cases he
  | some p =>
    obtain ⟨h, u⟩ := p
    have hsplit : Chatparse.splitThink t = (some (lastThought h), u.dropWhile (· = '\n')) := by
      unfold Chatparse.splitThink
      rw [hs]
      rfl
    have hu : jinjaTrim (u.dropWhile (· = '\n')) = jinjaTrim u :=
      strip_dropWhile fun _ hc => isPythonSpace_newline hc
    have hthought : jinjaTrim (lastThought h) = lastThought h := jinjaTrim_jinjaTrim _
    have hr := splitReasoning_reasoning hs
    rw [hsplit]
    show thinkOpen ++ ['\n'] ++ jinjaTrim (lastThought h) ++ ['\n'] ++ thinkClose ++ ['\n', '\n'] ++
        jinjaTrim (u.dropWhile (· = '\n')) =
      thinkOpen ++ ['\n'] ++ jinjaTrim (splitReasoning none (jinjaTrim t)).1 ++ ['\n'] ++ thinkClose ++ ['\n', '\n'] ++
        (splitReasoning none (jinjaTrim t)).2 ↔ _
    rw [hthought, hr, hu, List.append_cancel_left_eq, eq_comm]
    exact splitReasoning_content_iff hs

/-- A conversation with an answer without calls renders to the same text with
the message rebuilt from it exactly for a clean answer. -/
theorem split_alike_iff {pre post : List Message} {tools : List Value} {opts : Options} {t : List Char} {R : Rendered}
    (ht : ¬"<tool_call>".toList <:+: t) (hq : AfterQuery ⟨pre ++ said t :: post, tools, opts⟩ pre.length)
    (hR : render lowerExp ⟨pre ++ said t :: post, tools, opts⟩ = .ok R) :
    ∃ reply, Chatparse.parseAssistant t = some reply ∧ reply.toolCalls = [] ∧
      (render lowerExp ⟨pre ++ ofReply reply :: post, tools, opts⟩ = .ok R ↔ CleanClose t) := by
  have hm : (said t).Says t := ⟨rfl, rfl⟩
  obtain ⟨a, b, hab⟩ := render_around hm hq hR
  have hself : R = ⟨a ++ assistantBlock lowerExp true (said t) t ++ b, R.counts⟩ :=
    Except.ok.inj (hR.symm.trans (hab _ _ hm))
  refine ⟨_, parseAssistant_said ht, rfl, ?_⟩
  rw [hab (ofReply _) (jinjaTrim (Chatparse.splitThink t).2) ⟨rfl, rfl⟩, ← assistantText_ofReply_iff lowerExp t]
  constructor
  · intro h
    have htext := congrArg Rendered.text ((Except.ok.inj h).trans hself)
    unfold assistantBlock at htext
    simpa only [List.append_cancel_left_eq, List.append_cancel_right_eq, List.append_assoc] using htext
  · intro h
    rw [assistantBlock, h]
    exact congrArg Except.ok hself.symm

theorem split_alike_iff_clean : ∃ reply, Chatparse.parseAssistant "r</think>\ny".toList = some reply ∧
    render (fun _ => []) (sampleRequest (ofReply reply)) =
      .ok ⟨"<|im_start|>user\nq<|im_end|>\n<|im_start|>assistant\n<think>\nr\n</think>\n\ny<|im_end|>\n".toList,
        ⟨0, 0⟩⟩ := by
  have hclean : CleanClose "r</think>\ny".toList := by
    intro h u he
    obtain ⟨rfl, rfl⟩ : h = ['r'] ∧ u = ['\n', 'y'] := by
      have hs : "r</think>\ny".toList.dropInfix? thinkClose = some (['r'], ['\n', 'y']) := by decide
      rw [hs] at he
      exact (Prod.mk.inj (Option.some.inj he)).imp Eq.symm Eq.symm
    refine ⟨by decide, ?_⟩
    intro c r hc hcs
    obtain rfl : 'y' = c := (List.cons.inj hc).1
    cases hcs
  have hq : AfterQuery (sampleRequest (said "r</think>\ny".toList)) 1 := ⟨0, by decide, by decide⟩
  have hR : render (fun _ => []) (sampleRequest (said "r</think>\ny".toList)) =
      .ok ⟨"<|im_start|>user\nq<|im_end|>\n<|im_start|>assistant\n<think>\nr\n</think>\n\ny<|im_end|>\n".toList,
        ⟨0, 0⟩⟩ := by decide
  obtain ⟨reply, h1, -, h2⟩ := split_alike_iff (by decide) hq hR
  exact ⟨reply, h1, h2.mpr hclean⟩

/-- A blank behind the marker stays in the template's content. -/
theorem split_differs : ¬∀ (lowerExp : LowerExp) (pre post : List Message) (tools : List Value) (opts : Options)
    (t : List Char) (R : Rendered), ¬"<tool_call>".toList <:+: t →
    AfterQuery ⟨pre ++ said t :: post, tools, opts⟩ pre.length →
    render lowerExp ⟨pre ++ said t :: post, tools, opts⟩ = .ok R →
    ∃ reply, Chatparse.parseAssistant t = some reply ∧
      render lowerExp ⟨pre ++ ofReply reply :: post, tools, opts⟩ = .ok R := by
  intro h
  have hq : AfterQuery (sampleRequest (said "r</think> y".toList)) 1 := ⟨0, by decide, by decide⟩
  have hR : render (fun _ => []) (sampleRequest (said "r</think> y".toList)) =
      .ok ⟨"<|im_start|>user\nq<|im_end|>\n<|im_start|>assistant\n<think>\nr\n</think>\n\n y<|im_end|>\n".toList,
        ⟨0, 0⟩⟩ := by decide
  have hread : Chatparse.parseAssistant "r</think> y".toList = some ⟨some ['r'], ['y'], []⟩ := by decide
  obtain ⟨reply, h1, h2⟩ := h _ _ _ _ _ _ _ (by decide) hq hR
  obtain rfl := Option.some.inj (hread.symm.trans h1)
  exact absurd h2 (by decide)

end Chat
end Siphon
