/-
# Reading a prompt back

If no content, reasoning, value or tool of a conversation has a marker, and no
name or key the beginning of one, no block has a marker in its body: what the
template writes between the texts is clear of them (`Sealed`), and a text
without markers stays so if a tag or a line end follows it (`Quiet`). So the
blocks are read back from the prompt in their order (`render_framed`), and an
answer begins with a think block exactly if no later message of the user asks
something. The labels of images and videos are numbered in the order of the
parts; a part in what the template cuts off an answer keeps its number, and
its label is not written (`picture_unwritten`).

Key definitions: `Free`, `Quiet`, `Sealed`, `Unmarked`.
Key theorems: `assistantText_quiet`, `framed_runBlock`, `framed_systemBlocks`, `thinkHeader_iff`,
`render_framed`.
-/
import Siphon.Chat.Blocks

namespace Siphon
namespace Chat

open Search
open Pyjson (LowerExp Value)

variable {lowerExp : LowerExp}

/-! ### Texts without markers -/

/-- None of the markers stands in a text. -/
structure Free (s : List Char) : Prop where
  start : ¬imStart <:+: s
  stop : ¬imEnd <:+: s
  think : ¬thinkOpen <:+: s

instance : DecidablePred Free := fun s =>
  decidable_of_iff (¬imStart <:+: s ∧ ¬imEnd <:+: s ∧ ¬thinkOpen <:+: s)
    ⟨fun h => ⟨h.1, h.2.1, h.2.2⟩, fun h => ⟨h.start, h.stop, h.think⟩⟩

/-- The markers around a block. -/
def IsMarker (p : List Char) : Prop := p = imStart ∨ p = imEnd

/-- A tag or a line end, or nothing. -/
def Stop (r : List Char) : Prop := ∀ c s, r = c :: s → c = '<' ∨ c = '\n'

/-- No marker begins in a text with a tag or a line end behind it. -/
def Quiet (s : List Char) : Prop := ∀ p r, IsMarker p → Stop r → Clear p s r

/-- No marker begins in a text, whatever follows. -/
def Sealed (s : List Char) : Prop := ∀ p r, IsMarker p → Clear p s r

theorem IsMarker.begins {p : List Char} (h : IsMarker p) : ∃ q, p = "<|".toList ++ q := by
  obtain rfl | rfl := h
  · exact ⟨"im_start|>".toList, rfl⟩
  · exact ⟨"im_end|>".toList, rfl⟩

theorem Free.of_infix {s t : List Char} (h : Free s) (ht : t <:+: s) : Free t :=
  ⟨fun hp => h.start (hp.trans ht), fun hp => h.stop (hp.trans ht), fun hp => h.think (hp.trans ht)⟩

theorem Free.quiet {s : List Char} (h : Free s) : Quiet s := by
  intro p r hp hr
  have hnot : ¬p <:+: s := by
    obtain rfl | rfl := hp
    · exact h.start
    · exact h.stop
  obtain _ | ⟨c, r⟩ := r
  · exact clear_of_not_infix hnot
  · apply clear_of_stop hnot
    obtain rfl | rfl := hr c r rfl
    · obtain rfl | rfl := hp <;> decide
    · obtain rfl | rfl := hp <;> decide

theorem sealed_nil : Sealed [] := fun _ _ _ => clear_nil

/-- Letters among which no marker can begin. -/
theorem sealed_letters {s : List Char} (h : Apart ['<', '|'] s) : Sealed s := by
  intro p r hp
  obtain ⟨q, rfl⟩ := hp.begins
  exact (clear_of_literal h).longer q

/-- A literal, taken as its letters: reading a string is slow. -/
theorem sealed_literal {s : List Char} (h : Apart ['<', '|'] s) : Sealed (String.ofList s).toList := by
  rw [String.toList_ofList]
  exact sealed_letters h

theorem Sealed.append {s t : List Char} (hs : Sealed s) (ht : Sealed t) : Sealed (s ++ t) := fun p r hp =>
  (hs p (t ++ r) hp).append (ht p r hp)

theorem Sealed.quiet {s : List Char} (hs : Sealed s) : Quiet s := fun p r hp _ => hs p r hp

theorem Sealed.before {s t : List Char} (hs : Sealed s) (ht : Quiet t) : Quiet (s ++ t) := fun p r hp hr =>
  (hs p (t ++ r) hp).append (ht p r hp hr)

/-- A tag or a line end behind a text seals it. -/
theorem Quiet.seal {s t : List Char} (hs : Quiet s) (ht : Sealed t) {c : Char} {t' : List Char} (hc : t = c :: t')
    (h : c = '<' ∨ c = '\n') : Sealed (s ++ t) := by
  intro p r hp
  refine (hs p (t ++ r) hp ?_).append (ht p r hp)
  intro d u hd
  rw [hc] at hd
  rwa [← (List.cons.inj hd).1]

theorem Quiet.append {s t : List Char} (hs : Quiet s) (ht : Sealed t) (h : Stop t) : Quiet (s ++ t) := by
  intro p r hp hr
  refine (hs p (t ++ r) hp ?_).append (ht p r hp)
  intro d u hd
  obtain _ | ⟨c, t⟩ := t
  · exact hr d u hd
  · rw [← (List.cons.inj hd).1]
    exact h c t rfl

/-- A name or a key, with what the template writes behind it. -/
theorem sealed_name {n : List Char} (h : ¬"<|".toList <:+: n) : Sealed (n ++ ">\n".toList) := by
  intro p r hp
  obtain ⟨q, rfl⟩ := hp.begins
  have hname : Clear "<|".toList n ('>' :: ('\n' :: r)) := clear_of_stop h (by decide)
  exact (hname.append (b := ">\n".toList) (r := r) (clear_of_literal (by decide))).longer q

theorem sealed_flatMap {α : Type*} {f : α → List Char} : ∀ {l : List α}, (∀ x ∈ l, Sealed (f x)) → Sealed (l.flatMap f)
  | [], _ => sealed_nil
  | x :: l, h => by
    obtain ⟨hx, hl⟩ := List.forall_mem_cons.mp h
    rw [List.flatMap_cons]
    exact hx.append (sealed_flatMap hl)

theorem Quiet.not_infix {s p : List Char} (h : Quiet s) (hp : IsMarker p) : ¬p <:+: s := by
  refine not_infix_of_clear ?_ (h p [] hp fun _ _ hr => nomatch hr)
  obtain rfl | rfl := hp <;> exact List.cons_ne_nil _ _

/-! ### Answers -/

theorem jinjaTrim_isInfix (s : List Char) : jinjaTrim s <:+: s := strip_isInfix _ s

/-- Behind the last occurrence, or the whole. -/
theorem afterLast_isInfix (p s : List Char) : (afterLast p s).getD s <:+: s := by
  cases h : afterLast p s with
  | none => exact List.infix_rfl
  | some b =>
    obtain ⟨⟨a, rfl⟩, -⟩ := afterLast_eq_some.mp h
    exact (List.suffix_append _ b).isInfix

theorem splitReasoning_free {r : Option (List Char)} {c : List Char} (hr : ∀ x ∈ r, Free x) (hc : Free c) :
    Free (splitReasoning r c).1 ∧ Free (splitReasoning r c).2 := by
  have hnil : Free [] := ⟨by decide, by decide, by decide⟩
  unfold splitReasoning
  cases r with
  | some r => exact ⟨hr r rfl, hc⟩
  | none =>
    cases h : c.dropInfix? thinkClose with
    | none => exact ⟨hnil, hc⟩
    | some p =>
      obtain ⟨head, tail⟩ := p
      have hhead : head <:+: c := by
        rw [(dropInfix_eq_some.mp h).1, List.append_assoc]
        exact (List.prefix_append head _).isInfix
      have hthought := (List.dropWhile_suffix (p := fun c => decide (c = '\n'))
        (l := (afterLast thinkOpen (head.rdropWhile (· = '\n'))).getD (head.rdropWhile (· = '\n')))).isInfix
      have hrest := (List.dropWhile_suffix (p := fun c => decide (c = '\n'))
        (l := (afterLast thinkClose c).getD c)).isInfix
      constructor
      · apply hc.of_infix
        exact hthought.trans ((afterLast_isInfix _ _).trans ((List.rdropWhile_prefix _ head).isInfix.trans hhead))
      · exact hc.of_infix (hrest.trans (afterLast_isInfix _ c))

/-- What a call may hold. -/
structure CallFree (lowerExp : LowerExp) (c : FunctionCall) : Prop where
  name : ¬"<|".toList <:+: c.name
  key : ∀ a ∈ c.arguments, ¬"<|".toList <:+: a.1
  value : ∀ a ∈ c.arguments, Free (argumentText lowerExp a.2)

instance : DecidablePred (CallFree lowerExp) := fun c =>
  decidable_of_iff (¬"<|".toList <:+: c.name ∧ (∀ a ∈ c.arguments, ¬"<|".toList <:+: a.1) ∧
    ∀ a ∈ c.arguments, Free (argumentText lowerExp a.2))
    ⟨fun h => ⟨h.1, h.2.1, h.2.2⟩, fun h => ⟨h.name, h.key, h.value⟩⟩

theorem callText_sealed {c : FunctionCall} (h : CallFree lowerExp c) : Sealed (callText lowerExp c) := by
  have hparams : Sealed (c.arguments.flatMap (parameterText lowerExp)) := by
    apply sealed_flatMap
    intro a ha
    have hparam : parameterText lowerExp a = "<parameter=".toList ++ ((a.1 ++ ">\n".toList) ++
        (argumentText lowerExp a.2 ++ "\n</parameter>\n".toList)) := by
      unfold parameterText
      simp only [List.append_assoc]
    rw [hparam]
    apply (sealed_literal (by decide)).append
    apply (sealed_name (h.key a ha)).append
    exact (h.value a ha).quiet.seal (sealed_literal (by decide)) rfl (.inr rfl)
  unfold callText
  exact ((sealed_name h.name).append hparams).append (sealed_literal (by decide))

theorem callsText_sealed {content : List Char} {cs : List FunctionCall} (h : ∀ c ∈ cs, CallFree lowerExp c) :
    Sealed (callsText lowerExp content cs) ∧ Stop (callsText lowerExp content cs) := by
  cases cs with
  | nil => exact ⟨sealed_nil, fun _ _ hn => nomatch hn⟩
  | cons c cs =>
    obtain ⟨hc, hcs⟩ := List.forall_mem_cons.mp h
    have hlater : Sealed (cs.flatMap fun c => "\n<tool_call>\n<function=".toList ++ callText lowerExp c) :=
      sealed_flatMap fun x hx => (sealed_literal (by decide)).append (callText_sealed (hcs x hx))
    unfold callsText
    dsimp only
    rw [List.append_assoc]
    split_ifs
    · refine ⟨(sealed_literal (by decide)).append ((callText_sealed hc).append hlater), ?_⟩
      intro d s hd
      exact .inr (List.cons.inj hd).1.symm
    · refine ⟨(sealed_literal (by decide)).append ((callText_sealed hc).append hlater), ?_⟩
      intro d s hd
      exact .inl (List.cons.inj hd).1.symm

/-- The header of an answer behind the last query. -/
def thinkHeader : List Char := thinkOpen ++ ['\n']

/-- Calls without content before them do not begin with a think block. -/
theorem not_thinkHeader_callsText (cs : List FunctionCall) : ¬thinkHeader <+: callsText lowerExp [] cs := by
  cases cs with
  | nil => exact fun h => absurd (List.prefix_nil.mp h) (List.cons_ne_nil _ _)
  | cons c cs =>
    have htrim : ¬jinjaTrim [] ≠ [] := by decide
    unfold callsText
    dsimp only
    rw [if_neg htrim, List.append_assoc]
    intro h
    exact absurd (List.prefix_of_prefix_length_le h (List.prefix_append _ _) (by decide)) (by decide)

/-- What an answer may hold. -/
structure AnswerFree (lowerExp : LowerExp) (m : Message) : Prop where
  reasoning : ∀ r ∈ m.reasoning, Free r
  calls : ∀ c ∈ m.toolCalls, CallFree lowerExp c

instance : DecidablePred (AnswerFree lowerExp) := fun m =>
  decidable_of_iff ((∀ r ∈ m.reasoning, Free r) ∧ ∀ c ∈ m.toolCalls, CallFree lowerExp c)
    ⟨fun h => ⟨h.1, h.2⟩, fun h => ⟨h.reasoning, h.calls⟩⟩

section Answer

variable {m : Message} {content : List Char} (hm : AnswerFree lowerExp m) (hc : Free content)

include hm hc

theorem assistantText_quiet (fresh : Bool) : Quiet (assistantText lowerExp fresh m content) := by
  obtain ⟨hr, hrest⟩ := splitReasoning_free hm.reasoning hc
  obtain ⟨hcalls, hstop⟩ := @callsText_sealed lowerExp (splitReasoning m.reasoning content).2 m.toolCalls hm.calls
  unfold assistantText
  dsimp only
  cases fresh with
  | false => exact hrest.quiet.append hcalls hstop
  | true =>
    have hthought := (hr.of_infix (jinjaTrim_isInfix _)).quiet
    have hclose : Sealed (['\n'] ++ thinkClose ++ ['\n', '\n']) := sealed_letters (by decide)
    have hopen : Sealed (thinkOpen ++ ['\n']) := sealed_letters (by decide)
    have hhead := hopen.append (hthought.seal hclose rfl (.inr rfl))
    rw [if_pos rfl]
    have happend := ((hhead.before hrest.quiet).append hcalls hstop)
    simpa only [List.append_assoc] using happend

/-- An answer begins with a think block exactly behind the last query. -/
theorem thinkHeader_iff (fresh : Bool) : thinkHeader <+: assistantText lowerExp fresh m content ↔ fresh = true := by
  obtain ⟨-, hrest⟩ := splitReasoning_free hm.reasoning hc
  unfold assistantText
  dsimp only
  generalize (splitReasoning m.reasoning content).2 = rest at hrest
  cases fresh with
  | true =>
    refine ⟨fun _ => rfl, fun _ => ?_⟩
    rw [if_pos rfl]
    simp only [List.append_assoc]
    rw [← List.append_assoc thinkOpen]
    exact List.prefix_append _ _
  | false =>
    refine ⟨fun h => ?_, fun h => nomatch h⟩
    rw [if_neg Bool.false_ne_true] at h
    obtain ⟨-, hstop⟩ := @callsText_sealed lowerExp rest m.toolCalls hm.calls
    by_cases hnil : rest = []
    · rw [hnil, List.nil_append] at h
      exact absurd h (not_thinkHeader_callsText _)
    · -- no think block begins in the content, whatever stands behind it
      have hclear : Clear thinkOpen rest (callsText lowerExp rest m.toolCalls) := by
        cases hcalls : callsText lowerExp rest m.toolCalls with
        | nil => exact clear_of_not_infix hrest.think
        | cons c s =>
          apply clear_of_stop hrest.think
          obtain rfl | rfl := hstop c s hcalls <;> decide
      exact absurd ((List.prefix_append thinkOpen ['\n']).trans h) (hclear [] rest rfl hnil)

end Answer

/-! ### Blocks without markers -/

/-- No text of a conversation holds a marker. -/
structure Unmarked (lowerExp : LowerExp) (req : Request) : Prop where
  content : ∀ t ∈ turns req.opts.addVisionId [] req.messages, Free t.content
  answer : ∀ m ∈ req.messages, AnswerFree lowerExp m
  tool : ∀ v ∈ req.tools, Free (Pyjson.dumps lowerExp v)

theorem framed_of_quiet {role body : List Char} (hrole : '\n' ∉ role) (hbody : Quiet body) : Block.Framed ⟨role, body⟩ :=
  ⟨hrole, hbody.not_infix (.inl rfl), hbody.not_infix (.inr rfl)⟩

theorem response_sealed {t : Turn} (ht : Free t.content) : Sealed ('\n' :: t.response) := by
  have hopen : Sealed "\n<tool_response>\n".toList := sealed_literal (by decide)
  have hclose : Sealed "\n</tool_response>".toList := sealed_literal (by decide)
  have happend := hopen.append (ht.quiet.seal hclose rfl (.inr rfl))
  rwa [← List.append_assoc] at happend

theorem framed_runBlock {run : List Turn} (hfree : ∀ t ∈ run, Free t.content)
    (hanswer : ∀ t ∈ run, AnswerFree lowerExp t.message) : ∀ b ∈ runBlock lowerExp run, b.Framed := by
  intro b hb
  cases run with
  | nil => cases hb
  | cons t ts =>
    have ht := hfree t (List.mem_cons_self ..)
    unfold runBlock at hb
    dsimp only at hb
    split at hb
    · obtain rfl := List.mem_singleton.mp hb
      exact framed_of_quiet (by decide) ht.quiet
    · obtain rfl := List.mem_singleton.mp hb
      exact framed_of_quiet (by decide) (assistantText_quiet (hanswer t (List.mem_cons_self ..)) ht t.fresh)
    · obtain rfl := List.mem_singleton.mp hb
      have hsealed : Sealed ((t :: ts).flatMap fun t => '\n' :: t.response) :=
        sealed_flatMap fun u hu => response_sealed (hfree u hu)
      rw [← intercalate_response] at hsealed
      refine framed_of_quiet (by decide) fun p r hp hr => ?_
      exact (Clear.cons_iff.mp (hsealed p r hp)).2
    · cases hb

theorem toolsInstructions_sealed : Sealed toolsInstructions := by
  unfold toolsInstructions
  simp only [String.toList_append, List.append_assoc]
  iterate 8 refine (sealed_literal (by decide)).append ?_
  exact sealed_literal (by decide)

/-- The tools, each on a line, in front of what is written behind them. -/
theorem tools_sealed {tools : List Value} (h : ∀ v ∈ tools, Free (Pyjson.dumps lowerExp v)) {s : List Char}
    (hs : Sealed ('\n' :: s)) :
    Sealed ((tools.flatMap fun v => '\n' :: Pyjson.dumps lowerExp v) ++ '\n' :: s) := by
  induction tools with
  | nil => exact hs
  | cons v tools ih =>
    obtain ⟨hv, htools⟩ := List.forall_mem_cons.mp h
    have hline : Quiet ('\n' :: Pyjson.dumps lowerExp v) :=
      (sealed_letters (s := ['\n']) (by decide)).before hv.quiet
    obtain ⟨r, hr⟩ : ∃ r, (tools.flatMap fun v => '\n' :: Pyjson.dumps lowerExp v) ++ '\n' :: s = '\n' :: r := by
      cases tools with
      | nil => exact ⟨s, rfl⟩
      | cons w tools => exact ⟨_, rfl⟩
    rw [List.flatMap_cons, List.append_assoc]
    exact hline.seal (ih htools) hr (.inr rfl)

theorem framed_systemBlocks {tools : List Value} {ts : List Turn} (htools : ∀ v ∈ tools, Free (Pyjson.dumps lowerExp v))
    (hts : ∀ t ∈ ts, Free t.content) : ∀ b ∈ systemBlocks lowerExp tools ts, b.Framed := by
  have hsystem : ∀ c ∈ systemText ts, Free c := by
    intro c hc
    obtain ⟨t, ht, rfl⟩ := Option.map_eq_some_iff.mp hc
    exact hts t (List.mem_of_mem_head? (Option.filter_eq_some_iff.mp ht).1)
  intro b hb
  unfold systemBlocks at hb
  split_ifs at hb with hnil
  · obtain rfl := List.mem_singleton.mp hb
    have htag : Sealed "\n</tools>".toList := sealed_literal (by decide)
    have hclose : Sealed ('\n' :: ("</tools>".toList ++ toolsInstructions)) := htag.append toolsInstructions_sealed
    have hbegin : Sealed toolsPrefix := sealed_literal (by decide)
    have htail : Quiet (if (systemText ts).getD [] ≠ [] then ['\n', '\n'] ++ (systemText ts).getD [] else []) := by
      split_ifs with hc
      · apply (sealed_letters (s := ['\n', '\n']) (by decide)).before
        cases hs : systemText ts with
        | none => exact sealed_nil.quiet
        | some c => exact (hsystem c hs).quiet
      · exact sealed_nil.quiet
    have hbody := (hbegin.append (tools_sealed htools hclose)).before htail
    rw [← List.cons_append, show '\n' :: "</tools>".toList = "\n</tools>".toList from rfl] at hbody
    simp only [List.append_assoc] at hbody
    refine framed_of_quiet (by decide) ?_
    simp only [List.append_assoc]
    exact hbody
  · obtain ⟨c, hc, rfl⟩ := Option.map_eq_some_iff.mp (Option.mem_toList.mp hb)
    exact framed_of_quiet (by decide) (hsystem c hc).quiet

/-- The turns of the messages, in their order. -/
theorem map_message_turns {avi : Bool} : ∀ (seen : List Part) (ms : List Message),
    (turns avi seen ms).map (·.message) = ms
  | _, [] => rfl
  | seen, m :: ms => by rw [turns, List.map_cons, map_message_turns]

/-- A turn is fresh if no later one asks something. -/
theorem turns_fresh {avi : Bool} : ∀ {seen : List Part} {ms : List Message} {a b : List Turn} {t : Turn},
    turns avi seen ms = a ++ t :: b → t.fresh = !b.any Turn.asks
  | seen, [], a, b, t, h => by simp [turns] at h
  | seen, m :: ms, [], b, t, h => by
    rw [turns] at h
    obtain ⟨rfl, rfl⟩ := List.cons.inj h
    rfl
  | seen, m :: ms, x :: a, b, t, h => turns_fresh (List.cons.inj h).2

theorem partsText_append {avi : Bool} : ∀ (seen ps qs : List Part),
    partsText avi seen (ps ++ qs) = partsText avi seen ps ++ partsText avi (seen ++ ps) qs
  | seen, [], qs => by
    rw [List.append_nil]
    rfl
  | seen, p :: ps, qs => by
    rw [List.cons_append, partsText, partsText, partsText_append, List.append_assoc, List.append_assoc]
    rfl

/-- A part is written behind all the parts before it. -/
theorem turns_part {avi : Bool} {m : Message} {post : List Message} {ps qs : List Part} {p : Part}
    (hm : m.content = .parts (ps ++ p :: qs)) : ∀ (pre : List Message) (seen : List Part),
    ∃ t, (turns avi seen (pre ++ m :: post))[pre.length]? = some t ∧ t.message = m ∧ ∃ x y, t.content =
      jinjaTrim (x ++ partText avi (seen ++ pre.flatMap (·.content.partList) ++ ps) p ++ y)
  | [], seen => by
    refine ⟨_, rfl, rfl, partsText avi seen ps, partsText avi (seen ++ ps ++ [p]) qs, ?_⟩
    rw [hm, List.flatMap_nil, List.append_nil, List.append_assoc]
    exact congrArg jinjaTrim (partsText_append seen ps (p :: qs))
  | x :: pre, seen => by
    obtain ⟨t, ht, hmessage, hcontent⟩ := turns_part hm pre (seen ++ x.content.partList)
    refine ⟨t, ht, hmessage, ?_⟩
    rwa [List.flatMap_cons, ← List.append_assoc seen]

/-- The prompt for a new answer is read as an open block. -/
theorem readBlocks_generationPrompt (opts : Options) : readBlocks 1 (generationPrompt opts) = some ([], openBlock opts) := by
  obtain ⟨_ | _, _ | _, _ | _⟩ := opts <;> decide

/-- **The blocks of a prompt.** A conversation that does not begin with a tool
message and holds no markers, written as a prompt: the blocks are read back as
the system block and one block for each run of its turns, with an open block
behind them if a new answer is asked for; an answer begins with a think block
exactly if no later message of the user asks something; a part is written with
the number it has among the parts of its kind; and the counts are those of the
parts. -/
theorem render_framed {req : Request} {R : Rendered} (hR : render lowerExp req = .ok R)
    (hfirst : req.messages.head?.map (·.role) ≠ some .tool) (hfree : Unmarked lowerExp req) :
    let ts := turns req.opts.addVisionId [] req.messages
    let bs := systemBlocks lowerExp req.tools ts ++ (runs ts).flatMap (runBlock lowerExp)
    R.text = bs.flatMap Block.text ++ generationPrompt req.opts ∧
      readBlocks (bs.length + 1) R.text = some (bs, openBlock req.opts) ∧
      (∀ a t b, ts = a ++ t :: b → t.message.role = .assistant →
        (thinkHeader <+: assistantText lowerExp t.fresh t.message t.content ↔ ∀ u ∈ b, u.asks = false)) ∧
      (∀ pre m post ps p qs, req.messages = pre ++ m :: post → m.content = .parts (ps ++ p :: qs) →
        ∃ t, ts[pre.length]? = some t ∧ t.message = m ∧ ∃ x y, t.content = jinjaTrim
          (x ++ partText req.opts.addVisionId (pre.flatMap (·.content.partList) ++ ps) p ++ y)) ∧
      R.counts = counted (req.messages.flatMap (·.content.partList)) := by
  intro ts bs
  obtain ⟨htext, hcounts⟩ := render_blocks hR hfirst
  have hanswer : ∀ t ∈ ts, AnswerFree lowerExp t.message := by
    intro t ht
    apply hfree.answer
    rw [← map_message_turns [] req.messages]
    exact List.mem_map_of_mem ht
  have hframed : ∀ b ∈ bs, b.Framed := by
    intro b hb
    obtain hb | hb := List.mem_append.mp hb
    · exact framed_systemBlocks hfree.tool hfree.content b hb
    · obtain ⟨run, hrun, hb⟩ := List.mem_flatMap.mp hb
      have hmem : ∀ t ∈ run, t ∈ ts := by
        intro t ht
        rw [← List.flatten_splitBy together ts]
        exact List.mem_flatten.mpr ⟨run, hrun, ht⟩
      exact framed_runBlock (fun t ht => hfree.content t (hmem t ht)) (fun t ht => hanswer t (hmem t ht)) b hb
  refine ⟨htext, ?_, ?_, ?_, hcounts⟩
  · rw [htext]
    exact readBlocks_text (readBlocks_generationPrompt req.opts) hframed
  · intro a t b hts _
    have ht : t ∈ ts := hts ▸ List.mem_append_right a (List.mem_cons_self ..)
    rw [thinkHeader_iff (hanswer t ht) (hfree.content t ht), turns_fresh hts, Bool.not_eq_true', List.any_eq_false]
    simp only [Bool.not_eq_true]
  · intro pre m post ps p qs hreq hm
    have hpart := @turns_part req.opts.addVisionId m post ps qs p hm pre []
    rwa [← hreq] at hpart

theorem unmarked_sample : Unmarked (fun _ => []) (sampleRequest sampleMessage) where
  content := by decide
  answer := by decide
  tool := by decide

/-- The blocks of a question and an answer with a call. -/
theorem render_framed_sample : ∃ answer, readBlocks 3 sampleText =
    some ([⟨"user".toList, ['q']⟩, ⟨"assistant".toList, answer⟩], none) ∧ thinkHeader <+: answer := by
  obtain ⟨-, hread, hthink, -, -⟩ := render_framed render_sample (by decide) unmarked_sample
  exact ⟨_, hread, (hthink [_] _ [] rfl rfl).mpr fun _ hu => nomatch hu⟩

/-- A picture in what the template cuts off an answer, and one in the question
behind it. -/
def cutRequest : Request :=
  ⟨[⟨.assistant, .parts [.image, .text "</think>x".toList], none, []⟩, ⟨.user, .parts [.image], none, []⟩], [],
    ⟨false, false, true⟩⟩

def cutText : List Char :=
  "<|im_start|>assistant\nx<|im_end|>\n<|im_start|>user\n".toList ++
    "Picture 2: <|vision_start|><|image_pad|><|vision_end|><|im_end|>\n".toList

/-- The first picture is counted, and its label is not written. -/
theorem picture_unwritten : ¬∀ (lowerExp : LowerExp) (req : Request) (R : Rendered), render lowerExp req = .ok R →
    req.messages.head?.map (·.role) ≠ some .tool → Unmarked lowerExp req → req.opts.addVisionId = true →
    ∀ n, 1 ≤ n → n ≤ R.counts.images → imageText true n <:+: R.text := by
  intro h
  have hR : render (fun _ => []) cutRequest = .ok ⟨cutText, ⟨2, 0⟩⟩ := by decide
  have hfree : Unmarked (fun _ => []) cutRequest :=
    ⟨by decide +kernel, by decide +kernel, by decide +kernel⟩
  exact absurd (h _ _ _ hR (by decide) hfree rfl 1 (by decide) (by decide)) (by decide +kernel)

end Chat
end Siphon
