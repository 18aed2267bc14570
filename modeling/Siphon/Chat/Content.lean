/-
# What the parser keeps of the text around calls

The content of an answer is cut off at its first `<tool_call>`, while the calls
are collected to the end of the text. So what stands between two calls, or
behind the last, is in neither: no text is lost exactly if the segments behind
the first block are blank (`content_keeps_iff`).

Key definitions: `outside`, `segments`.
Key theorems: `content_eq`, `content_keeps_iff`.
-/
import Siphon.Chat.Panic

namespace Siphon
namespace Chatparse

open Fallible
open Chat (thinkClose jinjaTrim isPythonSpace isPythonSpace_newline)
open Search

/-- A text without its reasoning part, which ends with the first `</think>`. -/
def outside (text : List Char) : List Char := ((text.dropInfix? thinkClose).map (·.2)).getD text

/-- The segments of a text outside its blocks. Each block takes a part of the
text, so its length bounds the passes. -/
def segmentsFrom : ℕ → List Char → List (List Char)
  | 0, rest => [rest]
  | fuel + 1, rest =>
    match rest.dropInfix? "<tool_call>".toList with
    | none => [rest]
    | some (seg, after) =>
      match after.dropInfix? "</tool_call>".toList with
      | none => [rest]
      | some (_, rest) => seg :: segmentsFrom fuel rest

def segments (text : List Char) : List (List Char) := segmentsFrom (text.length + 1) text

/-- One block, and what stands before it. -/
theorem segmentsFrom_block {fuel : ℕ} {text seg after block rest : List Char}
    (h1 : text.dropInfix? "<tool_call>".toList = some (seg, after))
    (h2 : after.dropInfix? "</tool_call>".toList = some (block, rest)) :
    segmentsFrom (fuel + 1) text = seg :: segmentsFrom fuel rest := by
  rw [segmentsFrom, h1]
  dsimp only
  rw [h2]

theorem segmentsFrom_noBlock {fuel : ℕ} {text : List Char} (h : text.dropInfix? "<tool_call>".toList = none) :
    segmentsFrom fuel text = [text] := by
  cases fuel with
  | zero => rfl
  | succ fuel => rw [segmentsFrom, h]

/-- Passes beyond the length of the text change nothing. -/
theorem segmentsFrom_of_lt : ∀ {fuel fuel' : ℕ} {text : List Char}, text.length < fuel → text.length < fuel' →
    segmentsFrom fuel text = segmentsFrom fuel' text
  | fuel + 1, fuel' + 1, text, h, h' => by
    cases h1 : text.dropInfix? "<tool_call>".toList with
    | none => rw [segmentsFrom_noBlock h1, segmentsFrom_noBlock h1]
    | some p =>
      obtain ⟨seg, after⟩ := p
      cases h2 : after.dropInfix? "</tool_call>".toList with
      | none =>
        rw [segmentsFrom, segmentsFrom, h1]
        dsimp only
        rw [h2]
      | some q =>
        obtain ⟨block, rest⟩ := q
        have hlt := (show Block text _ rest from ⟨seg, after, block, h1, h2, rfl⟩).length_lt
        have ih : segmentsFrom fuel rest = segmentsFrom fuel' rest := segmentsFrom_of_lt (by omega) (by omega)
        rw [segmentsFrom_block h1 h2, segmentsFrom_block h1 h2, ih]

/-! ### The content -/

/-- Newlines in front of a text are in front of its first segment. -/
theorem segments_newlines {ls : List Char} (hls : ∀ c ∈ ls, c = '\n') (text : List Char) :
    ∃ seg segs, segments text = seg :: segs ∧ segments (ls ++ text) = (ls ++ seg) :: segs := by
  have htag : '<' ∉ ls := fun hc => absurd (hls _ hc) (by decide)
  unfold segments
  cases h1 : text.dropInfix? "<tool_call>".toList with
  | none =>
    have hnone : (ls ++ text).dropInfix? "<tool_call>".toList = none := by
      rw [dropInfix_eq_none] at h1 ⊢
      rintro ⟨c, d, he⟩
      obtain ⟨e, -, h2⟩ := occurrence_right (p := "tool_call>".toList) htag he.symm
      exact h1 ⟨e, d, h2.symm⟩
    exact ⟨text, [], segmentsFrom_noBlock h1, segmentsFrom_noBlock hnone⟩
  | some p =>
    obtain ⟨seg, after⟩ := p
    have h1' := dropInfix_append_left h1 (clear_of_head htag)
    cases h2 : after.dropInfix? "</tool_call>".toList with
    | none =>
      refine ⟨text, [], ?_, ?_⟩
      · rw [segmentsFrom, h1]
        dsimp only
        rw [h2]
      · rw [segmentsFrom, h1']
        dsimp only
        rw [h2]
    | some q =>
      obtain ⟨block, rest⟩ := q
      have hlt := (show Block text _ rest from ⟨seg, after, block, h1, h2, rfl⟩).length_lt
      have hlen : (ls ++ text).length = ls.length + text.length := List.length_append
      refine ⟨seg, segmentsFrom text.length rest, segmentsFrom_block h1 h2, ?_⟩
      rw [segmentsFrom_block h1' h2]
      congr 1
      exact segmentsFrom_of_lt (by omega) (by omega)

/-- Calls are looked for in the answer without the newlines in front. -/
theorem outside_eq (text : List Char) :
    ∃ ls, (∀ c ∈ ls, c = '\n') ∧ outside text = ls ++ (splitThink text).2 := by
  unfold outside splitThink
  cases text.dropInfix? thinkClose with
  | none => exact ⟨[], fun _ hc => (nomatch hc), rfl⟩
  | some p =>
    refine ⟨p.2.takeWhile (· = '\n'), fun c hc => ?_, List.takeWhile_append_dropWhile.symm⟩
    exact of_decide_eq_true (List.mem_takeWhile_imp (p := fun c => decide (c = '\n')) hc)

/-- The content of an answer whose calls parse is its first segment, trimmed. -/
theorem parseAssistant_content {text : List Char} {calls : List FunctionCall}
    (h : parseToolCalls (splitThink text).2 = .ok calls) : ∃ seg segs, segments (outside text) = seg :: segs ∧
      parseAssistant text = some ⟨(splitThink text).1, jinjaTrim seg, calls⟩ := by
  obtain ⟨ls, hls, hout⟩ := outside_eq text
  obtain ⟨seg, segs, hbody, hwhole⟩ := segments_newlines hls (splitThink text).2
  have hspace : ∀ c ∈ ls, isPythonSpace c := fun c hc => hls c hc ▸ (by decide)
  have htrim : jinjaTrim (ls ++ seg) = jinjaTrim seg := by
    have hstrip := strip_append (t := seg) (r := []) hspace (fun _ hc => nomatch hc)
    rwa [List.append_nil] at hstrip
  refine ⟨ls ++ seg, segs, hout ▸ hwhole, ?_⟩
  have hcontent : (((splitThink text).2.dropInfix? "<tool_call>".toList).map (·.1)).getD (splitThink text).2 = seg := by
    cases h1 : (splitThink text).2.dropInfix? "<tool_call>".toList with
    | none =>
      rw [segments, segmentsFrom_noBlock h1] at hbody
      exact (List.cons.inj hbody).1
    | some p =>
      obtain ⟨seg', after⟩ := p
      cases h2 : after.dropInfix? "</tool_call>".toList with
      | none =>
        rw [parseToolCalls, parseCalls, h1] at h
        dsimp only at h
        rw [h2] at h
        cases h
      | some q =>
        rw [segments, segmentsFrom_block h1 h2] at hbody
        exact (List.cons.inj hbody).1
  unfold parseAssistant
  dsimp only
  rw [h]
  dsimp only
  rw [hcontent, htrim]

/-- **What is kept of an answer.** Where the calls parse, the content has all
of the text outside them, up to blanks around the segments, exactly if the
segments behind the first block are blank. -/
theorem content_keeps_iff {text : List Char} {calls : List FunctionCall}
    (h : parseToolCalls (splitThink text).2 = .ok calls) : ∃ reply, parseAssistant text = some reply ∧
      (((segments (outside text)).flatMap jinjaTrim).Sublist reply.content ↔
        ∀ seg ∈ (segments (outside text)).tail, jinjaTrim seg = []) := by
  obtain ⟨seg, segs, hsegs, hreply⟩ := parseAssistant_content h
  refine ⟨_, hreply, ?_⟩
  rw [hsegs, List.flatMap_cons, List.tail_cons, ← List.flatMap_eq_nil_iff]
  constructor
  · intro hsub
    have hlen := hsub.length_le
    rw [List.length_append] at hlen
    exact List.eq_nil_of_length_eq_zero (by dsimp only at hlen; omega)
  · intro hnil
    rw [hnil, List.append_nil]

/-- A call with text before it, and blanks behind. -/
theorem content_keeps_iff_before : ∃ reply,
    parseAssistant "hi\n<tool_call>\n<function=f>\n</function>\n</tool_call>\n".toList = some reply ∧
      ((segments (outside "hi\n<tool_call>\n<function=f>\n</function>\n</tool_call>\n".toList)).flatMap
        jinjaTrim).Sublist reply.content := by
  have hcalls : parseToolCalls (splitThink "hi\n<tool_call>\n<function=f>\n</function>\n</tool_call>\n".toList).2 =
      .ok [⟨['f'], []⟩] := by decide
  obtain ⟨reply, hreply, hkeeps⟩ := content_keeps_iff hcalls
  exact ⟨reply, hreply, hkeeps.mpr (by decide)⟩

/-- What stands behind a call is lost. -/
theorem text_behind_lost : ¬∀ (text : List Char) (calls : List FunctionCall),
    parseToolCalls (splitThink text).2 = .ok calls → ∃ reply, parseAssistant text = some reply ∧
      ((segments (outside text)).flatMap jinjaTrim).Sublist reply.content := by
  intro h
  have hcalls : parseToolCalls (splitThink "<tool_call>\n<function=f>\n</function>\n</tool_call>\nbye".toList).2 =
      .ok [⟨['f'], []⟩] := by decide
  have hread : parseAssistant "<tool_call>\n<function=f>\n</function>\n</tool_call>\nbye".toList =
      some ⟨none, [], [⟨['f'], []⟩]⟩ := by decide
  obtain ⟨reply, hreply, hsub⟩ := h _ _ hcalls
  obtain rfl := Option.some.inj (hread.symm.trans hreply)
  exact absurd (List.sublist_nil.mp hsub) (by decide)

end Chatparse
end Siphon
