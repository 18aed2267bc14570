/-
# The blocks of a prompt

A conversation that renders is written in blocks, from an opening marker and a
role to a closing marker: the system block, one for each message of the user
and of the assistant, and one for each run of tool messages, with all their
responses (`renderMessages_blocks`). Blocks without markers in them are read
back as they were written (`readBlocks_text`).

Key definitions: `Block`, `runs`, `runBlock`, `systemBlocks`, `readBlocks`.
Key theorems: `renderMessages_blocks`, `readBlocks_text`.
-/
import Mathlib.Data.List.SplitBy
import Siphon.Chat.Turns

namespace Siphon
namespace Chat

open Fallible Search
open Pyjson (LowerExp Value)

variable {lowerExp : LowerExp}

/-! ### Blocks -/

structure Block where
  role : List Char
  body : List Char
  deriving DecidableEq

def Block.text (b : Block) : List Char := imStart ++ b.role ++ ['\n'] ++ b.body ++ imEnd ++ ['\n']

/-- What a tool said, in its tags. -/
def Turn.response (t : Turn) : List Char := "<tool_response>\n".toList ++ t.content ++ "\n</tool_response>".toList

/-- Two tool messages one after the other. -/
def together (t u : Turn) : Bool := t.message.role = .tool ∧ u.message.role = .tool

/-- The turns, with consecutive tool messages together. -/
def runs (ts : List Turn) : List (List Turn) := ts.splitBy together

/-- The block of a run. -/
def runBlock (lowerExp : LowerExp) : List Turn → List Block
  | [] => []
  | t :: ts =>
    match t.message.role with
    | .user => [⟨"user".toList, t.content⟩]
    | .assistant => [⟨"assistant".toList, assistantText lowerExp t.fresh t.message t.content⟩]
    | .tool => [⟨"user".toList, ['\n'].intercalate ((t :: ts).map Turn.response)⟩]
    | _ => []

/-- The content of a system message at the beginning, if there is one. -/
def systemText (ts : List Turn) : Option (List Char) :=
  (ts.head?.filter fun t => t.message.role = .system).map (·.content)

/-- The system block, where there are tools or a system message. -/
def systemBlocks (lowerExp : LowerExp) (tools : List Value) (ts : List Turn) : List Block :=
  if tools ≠ [] then
    let c := (systemText ts).getD []
    [⟨"system".toList, toolsPrefix ++ (tools.flatMap fun t => '\n' :: Pyjson.dumps lowerExp t) ++
      "\n</tools>".toList ++ toolsInstructions ++ (if c ≠ [] then ['\n', '\n'] ++ c else [])⟩]
  else ((systemText ts).map fun c => ⟨"system".toList, c⟩).toList

/-- The open block for a new answer. -/
def openBlock (opts : Options) : Option Block :=
  if opts.addGenerationPrompt then
    some ⟨"assistant".toList, if opts.enableThinking then thinkOpen ++ ['\n']
      else thinkOpen ++ ['\n', '\n'] ++ thinkClose ++ ['\n', '\n']⟩
  else none

/-- A text taken apart into blocks, the last of which may be open. -/
def readBlocks : ℕ → List Char → Option (List Block × Option Block)
  | 0, _ => none
  | fuel + 1, text =>
    if text = [] then some ([], none)
    else do
      let r ← text.dropPrefix? imStart
      let (role, r) ← r.dropInfix? ['\n']
      match r.dropInfix? imEnd with
      | none => if imStart <:+: r then none else some ([], some ⟨role, r⟩)
      | some (body, r) =>
        if imStart <:+: body then none
        else do
          let r ← r.dropPrefix? ['\n']
          let (bs, last) ← readBlocks fuel r
          some (⟨role, body⟩ :: bs, last)

/-! ### Runs -/

section Runs

variable {t u : Turn} {ts : List Turn}

theorem runs_cons_apart (h : ¬(t.message.role = .tool ∧ ts.head?.map (·.message.role) = some .tool)) :
    runs (t :: ts) = [t] :: runs ts := by
  apply List.splitBy_append (r := together) (l := [t])
  intro x hx y hy
  obtain rfl : t = x := Option.some.inj hx
  unfold together
  rw [decide_eq_false_iff_not]
  intro htool
  exact h ⟨htool.1, by rw [Option.mem_def.mp hy, Option.map_some, htool.2]⟩

/-- A tool message before a run of tool messages makes it longer. -/
theorem runs_cons_together (ht : t.message.role = .tool) (hu : u.message.role = .tool) :
    ∃ run rs, runs (u :: ts) = (u :: run) :: rs ∧ runs (t :: u :: ts) = (t :: u :: run) :: rs := by
  obtain ⟨hflat, hnil, hchain, hnext⟩ := List.splitBy_eq_iff.mp (rfl : (u :: ts).splitBy together = runs (u :: ts))
  obtain ⟨g, rs, hrs⟩ := List.exists_cons_of_ne_nil
    (List.splitBy_ne_nil.mpr (List.cons_ne_nil u ts) : runs (u :: ts) ≠ [])
  rw [hrs] at hflat hnil hchain hnext
  obtain ⟨v, run, rfl⟩ := List.exists_cons_of_ne_nil fun hg => hnil (hg ▸ List.mem_cons_self ..)
  obtain ⟨rfl, hts⟩ := List.cons.inj hflat
  refine ⟨run, rs, hrs, List.splitBy_eq_iff.mpr ⟨?_, ?_, ?_, ?_⟩⟩
  · rw [hts]
    rfl
  · intro hmem
    obtain h | h := List.mem_cons.mp hmem
    · cases h
    · exact hnil (List.mem_cons_of_mem _ h)
  · refine List.forall_mem_cons.mpr ⟨List.isChain_cons_cons.mpr ⟨decide_eq_true ⟨ht, hu⟩, hchain _ (List.mem_cons_self ..)⟩, ?_⟩
    exact fun run' hrun' => hchain run' (List.mem_cons_of_mem _ hrun')
  · rw [List.isChain_cons] at hnext ⊢
    refine ⟨fun run' hrun' => ?_, hnext.2⟩
    obtain ⟨ha, hb, hr⟩ := hnext.1 run' hrun'
    exact ⟨List.cons_ne_nil _ _, hb, by rwa [List.getLast_cons ha]⟩

end Runs

/-! ### The main loop -/

/-- What a run is written as. -/
def runText (lowerExp : LowerExp) (run : List Turn) : List Char := (runBlock lowerExp run).flatMap Block.text

/-- A run that was begun before. -/
def runRest (run : List Turn) : List Char := (run.flatMap fun t => '\n' :: t.response) ++ imEnd ++ ['\n']

/-- What turns are written as behind a message: with a tool message on both
sides the block is open already. -/
def behind (lowerExp : LowerExp) (before : Option Role) (ts : List Turn) : List Char :=
  match runs ts with
  | [] => []
  | run :: rs => (if before = some .tool ∧ ts.head?.map (·.message.role) = some .tool then runRest run
      else runText lowerExp run) ++ rs.flatMap (runText lowerExp)

theorem behind_apart {before : Option Role} {ts : List Turn}
    (h : ¬(before = some .tool ∧ ts.head?.map (·.message.role) = some .tool)) :
    behind lowerExp before ts = (runs ts).flatMap (runText lowerExp) := by
  unfold behind
  cases runs ts with
  | nil => rfl
  | cons run rs =>
    dsimp only
    rw [if_neg h]
    rfl

/-- Responses in one block. -/
theorem intercalate_response (t : Turn) (ts : List Turn) :
    '\n' :: ['\n'].intercalate ((t :: ts).map Turn.response) = (t :: ts).flatMap fun t => '\n' :: t.response := by
  induction ts generalizing t with
  | nil => simp [List.intercalate]
  | cons u ts ih =>
    rw [List.flatMap_cons, ← ih u]
    simp [List.intercalate]

theorem runText_tool {t : Turn} {ts : List Turn} (ht : t.message.role = .tool) :
    runText lowerExp (t :: ts) = imStart ++ "user".toList ++ runRest (t :: ts) := by
  unfold runText runBlock runRest
  dsimp only
  rw [ht, ← intercalate_response]
  show Block.text _ ++ [] = _
  unfold Block.text
  simp only [List.append_assoc, List.append_nil, List.cons_append, List.nil_append]

theorem runRest_cons (t : Turn) (ts : List Turn) : runRest (t :: ts) = '\n' :: t.response ++ runRest ts := by
  unfold runRest
  rw [List.flatMap_cons]
  simp only [List.append_assoc]

theorem behind_tool {t : Turn} {ts run : List Turn} {rs : List (List Turn)} (ht : t.message.role = .tool)
    (hruns : runs (t :: ts) = (t :: run) :: rs) (before : Option Role) : behind lowerExp before (t :: ts) =
      (if before = some .tool then [] else imStart ++ "user".toList) ++ runRest (t :: run) ++
        rs.flatMap (runText lowerExp) := by
  unfold behind
  rw [hruns, List.head?_cons, Option.map_some, ht]
  dsimp only
  rw [runText_tool ht]
  by_cases hb : before = some .tool
  · rw [if_pos ⟨hb, rfl⟩, if_pos hb, List.nil_append]
  · rw [if_neg fun h => hb h.1, if_neg hb]

theorem turns_head {avi : Bool} {seen : List Part} (ms : List Message) :
    (turns avi seen ms).head?.map (·.message.role) = ms.head?.map (·.role) := by
  cases ms with
  | nil => rfl
  | cons m ms => rfl

/-- Where a run of tool messages begins. -/
def opening (before : Option Role) : List Char := if before = some .tool then [] else imStart ++ "user".toList

/-- A tool message with another behind it. -/
theorem behind_together {t u : Turn} {us : List Turn} (ht : t.message.role = .tool) (hu : u.message.role = .tool)
    (before : Option Role) : opening before ++ '\n' :: t.response ++ behind lowerExp (some .tool) (u :: us) =
      behind lowerExp before (t :: u :: us) := by
  obtain ⟨run, rs, hrest, hwhole⟩ := @runs_cons_together t u us ht hu
  rw [behind_tool hu hrest, behind_tool ht hwhole, if_pos rfl, runRest_cons t]
  simp only [opening, List.append_assoc, List.nil_append]

/-- The last tool message of a run. -/
theorem behind_last {t : Turn} {us : List Turn} (ht : t.message.role = .tool)
    (hus : us.head?.map (·.message.role) ≠ some .tool) (before : Option Role) :
    opening before ++ '\n' :: t.response ++ imEnd ++ ['\n'] ++ behind lowerExp (some .tool) us =
      behind lowerExp before (t :: us) := by
  rw [behind_tool ht (runs_cons_apart fun h => hus h.2), behind_apart fun h => hus h.2, runRest_cons]
  simp only [opening, runRest, List.append_assoc, List.flatMap_nil, List.nil_append]

/-- A message that is not of a tool. -/
theorem behind_single {t : Turn} {us : List Turn} (ht : t.message.role ≠ .tool) (before : Option Role) :
    runText lowerExp [t] ++ behind lowerExp (some t.message.role) us = behind lowerExp before (t :: us) := by
  have hhead : ¬(before = some .tool ∧ (t :: us).head?.map (·.message.role) = some .tool) :=
    fun h => ht (Option.some.inj h.2)
  rw [behind_apart fun h => ht (Option.some.inj h.1), behind_apart hhead, runs_cons_apart fun h => ht h.1,
    List.flatMap_cons]

/-- The text of one message in front of the texts of those behind it. -/
theorem messageText_behind {q i : ℕ} {before : Option Role} {t : Turn} {us : List Turn} {u : List Char}
    (hbefore : before = none → t.message.role ≠ .tool) (hfresh : t.message.role ≠ .user → decide (q < i) = t.fresh)
    (h : messageText lowerExp q i before (us.head?.map (·.message.role)) t.message t.content = .ok u) :
    u ++ behind lowerExp (some t.message.role) us = behind lowerExp before (t :: us) := by
  unfold messageText at h
  by_cases ht : t.message.role = .tool
  · have hopen : (if before.isSome ∧ before ≠ some .tool then imStart ++ "user".toList else []) = opening before := by
      unfold opening
      cases before with
      | none => exact absurd ht (hbefore rfl)
      | some r => by_cases hr : r = .tool <;> simp [hr]
    have hu : u = opening before ++ '\n' :: t.response ++
        (if us.head?.map (·.message.role) ≠ some .tool then imEnd ++ ['\n'] else []) := by
      have htag : "\n<tool_response>\n".toList = '\n' :: "<tool_response>\n".toList := rfl
      rw [ht] at h
      dsimp only at h
      rw [hopen, htag] at h
      have hu := Except.ok.inj h
      subst hu
      unfold Turn.response
      simp only [List.append_assoc, List.cons_append]
    rw [ht, hu]
    by_cases hnext : us.head?.map (·.message.role) = some .tool
    · cases us with
      | nil => cases hnext
      | cons u' us =>
        rw [if_neg (not_not.mpr hnext), List.append_nil]
        exact behind_together ht (Option.some.inj hnext) before
    · rw [if_pos hnext, ← List.append_assoc]
      exact behind_last ht hnext before
  · have hu : u = runText lowerExp [t] := by
      unfold runText runBlock
      dsimp only
      cases hr : t.message.role with
      | tool => exact absurd hr ht
      | other name =>
        rw [hr] at h
        cases h
      | system =>
        rw [hr] at h
        dsimp only at h
        split_ifs at h
        exact (Except.ok.inj h).symm
      | user =>
        rw [hr] at h
        rw [← Except.ok.inj h]
        simp [Block.text]
      | assistant =>
        rw [hr] at h
        rw [← Except.ok.inj h, hfresh (by rw [hr]; exact Role.noConfusion)]
        simp [Block.text]
    rw [hu]
    exact behind_single ht before

/-- The loop writes the blocks of the turns, and counts their parts. The
induction is on the messages; `pre` are those written before. -/
theorem renderMessages_blocks {avi : Bool} {q : ℕ} {messages : List Message}
    (hq : ∀ pre m post, messages = pre ++ m :: post → m.role ≠ .user → ∀ seen,
      decide (q < pre.length) = !(turns avi seen post).any Turn.asks) :
    ∀ (ms pre : List Message) (before : Option Role) (seen : List Part) {t : List Char} {k : Counts},
      messages = pre ++ ms → (before = none → ms.head?.map (·.role) ≠ some .tool) →
      renderMessages lowerExp avi q pre.length before ms [] (counted seen) = .ok (t, k) →
      t = behind lowerExp before (turns avi seen ms) ∧ k = counted (seen ++ ms.flatMap (·.content.partList))
  | [], pre, before, seen, t, k, _, _, h => by
    obtain ⟨rfl, rfl⟩ := Prod.mk.inj (Except.ok.inj h)
    rw [List.flatMap_nil, List.append_nil]
    exact ⟨rfl, rfl⟩
  | m :: ms, pre, before, seen, t, k, hpre, hbefore, h => by
    obtain ⟨⟨c, k₁⟩, hc, h⟩ := bind_eq_ok h
    obtain ⟨rfl, rfl⟩ := renderContent_turn hc
    obtain ⟨u, hu, h⟩ := bind_eq_ok h
    rw [renderMessages_out] at h
    obtain ⟨⟨t', k'⟩, hrest, ht⟩ := map_eq_ok h
    obtain ⟨rfl, rfl⟩ := Prod.mk.inj ht
    have hlen : pre.length + 1 = (pre ++ [m]).length := by rw [List.length_append, List.length_singleton]
    rw [hlen] at hrest
    have ih := renderMessages_blocks hq ms (pre ++ [m]) (some m.role) (seen ++ m.content.partList)
      (by rw [hpre, List.append_assoc]; rfl) (fun hn => nomatch hn) hrest
    obtain ⟨rfl, rfl⟩ := ih
    constructor
    · have hnext : messageText lowerExp q pre.length before
          ((turns avi (seen ++ m.content.partList) ms).head?.map (·.message.role)) m
          (jinjaTrim (contentText avi seen m.content)) = .ok u := by
        rw [turns_head]
        exact hu
      have htool : before = none → m.role ≠ .tool := by
        intro hn htool
        apply hbefore hn
        rw [List.head?_cons, Option.map_some, htool]
      exact @messageText_behind lowerExp q pre.length before
        ⟨m, jinjaTrim (contentText avi seen m.content), !(turns avi (seen ++ m.content.partList) ms).any Turn.asks⟩ _ u
        htool (fun huser => hq pre m ms hpre huser _) hnext
    · rw [List.flatMap_cons, List.append_assoc]

/-! ### The system block -/

theorem renderParts_system {avi : Bool} (seen : List Part) : ∀ {ps : List Part} {out t : List Char} {k k' : Counts},
    renderParts false true avi ps out k = .ok (t, k') → t = out ++ partsText avi seen ps
  | [], out, t, k, k', h => by
    obtain ⟨rfl, -⟩ := Prod.mk.inj (Except.ok.inj h)
    exact (List.append_nil _).symm
  | p :: ps, out, t, k, k', h => by
    obtain ⟨⟨u, k₁⟩, h1, h2⟩ := bind_eq_ok h
    cases p with
    | text s =>
      obtain ⟨rfl, -⟩ := Prod.mk.inj (Except.ok.inj h1)
      rw [renderParts_system (seen ++ [.text s]) h2, List.append_assoc]
      rfl
    | image => cases h1
    | video => cases h1
    | other => cases h1

/-- The content of the system block is that of the first turn. -/
theorem systemContent_turns {req : Request} {c : Option (List Char)} {k : Counts}
    (h : systemContent req ⟨0, 0⟩ = .ok (c, k)) : c = systemText (turns req.opts.addVisionId [] req.messages) := by
  unfold systemContent at h
  cases hms : req.messages with
  | nil =>
    rw [hms] at h
    exact (Prod.mk.inj (Except.ok.inj h)).1.symm
  | cons m ms =>
    rw [hms] at h
    dsimp only at h
    unfold systemText
    rw [turns, List.head?_cons]
    by_cases hrole : m.role = .system
    · rw [if_pos hrole] at h
      obtain ⟨⟨t, k'⟩, ht, h⟩ := bind_eq_ok h
      obtain ⟨rfl, -⟩ := Prod.mk.inj (Except.ok.inj h)
      rw [Option.filter_some_pos (by exact decide_eq_true hrole)]
      have htext : t = contentText req.opts.addVisionId [] m.content := by
        cases hc : m.content with
        | text s =>
          rw [hc] at ht
          exact (Prod.mk.inj (Except.ok.inj ht)).1.symm
        | none =>
          rw [hc] at ht
          exact (Prod.mk.inj (Except.ok.inj ht)).1.symm
        | unsupported =>
          rw [hc] at ht
          cases ht
        | parts ps =>
          rw [hc] at ht
          exact renderParts_system [] ht
      rw [htext]
      rfl
    · rw [if_neg hrole] at h
      rw [Option.filter_some_neg (by simpa using hrole)]
      exact (Prod.mk.inj (Except.ok.inj h)).1.symm

theorem systemBlock_eq (tools : List Value) (ts : List Turn) :
    systemBlock lowerExp tools (systemText ts) = (systemBlocks lowerExp tools ts).flatMap Block.text := by
  have hrole : "system\n".toList = "system".toList ++ ['\n'] := rfl
  unfold systemBlock systemBlocks
  rw [hrole]
  by_cases htools : tools ≠ []
  · rw [if_pos htools, if_pos htools]
    simp only [Block.text, List.flatMap_cons, List.flatMap_nil, List.append_assoc, List.append_nil]
  · rw [if_neg htools, if_neg htools]
    cases systemText ts with
    | none => rfl
    | some c =>
      simp only [Block.text, Option.map_some, Option.toList_some, List.flatMap_cons, List.flatMap_nil,
        List.append_assoc, List.append_nil]

/-- The text of a conversation that does not begin with a tool message, and
its counts. -/
theorem render_blocks {req : Request} {R : Rendered} (hR : render lowerExp req = .ok R)
    (hfirst : req.messages.head?.map (·.role) ≠ some .tool) :
    R.text = (systemBlocks lowerExp req.tools (turns req.opts.addVisionId [] req.messages) ++
      (runs (turns req.opts.addVisionId [] req.messages)).flatMap (runBlock lowerExp)).flatMap Block.text ++
      generationPrompt req.opts ∧ R.counts = counted (req.messages.flatMap (·.content.partList)) := by
  unfold render at hR
  split_ifs at hR
  obtain ⟨⟨c, k⟩, h1, hR⟩ := bind_eq_ok hR
  obtain ⟨q, h2, hR⟩ := bind_eq_ok hR
  obtain ⟨⟨out, k'⟩, h3, hR⟩ := bind_eq_ok hR
  obtain rfl := Except.ok.inj hR
  obtain rfl : k = ⟨0, 0⟩ := systemContent_counts h1
  rw [renderMessages_out] at h3
  obtain ⟨⟨t, k₁⟩, hloop, ht⟩ := map_eq_ok h3
  obtain ⟨rfl, rfl⟩ := Prod.mk.inj ht
  obtain ⟨rfl, rfl⟩ := renderMessages_blocks
    (fun pre m post hreq hm seen => queryIndex_fresh h2 hreq hm seen) req.messages [] none [] rfl (fun _ => hfirst) hloop
  have hnone : ¬((none : Option Role) = some .tool ∧
      (turns req.opts.addVisionId [] req.messages).head?.map (·.message.role) = some .tool) := fun h => nomatch h.1
  rw [systemContent_turns h1, systemBlock_eq, behind_apart hnone, List.flatMap_append, List.flatMap_assoc]
  exact ⟨rfl, rfl⟩

/-! ### Reading blocks -/

/-- A block whose role is one line, and in whose body no marker stands. -/
structure Block.Framed (b : Block) : Prop where
  role : '\n' ∉ b.role
  start : ¬imStart <:+: b.body
  stop : ¬imEnd <:+: b.body

/-- What comes before the first line end. -/
theorem dropInfix_newline {s : List Char} (hs : '\n' ∉ s) (r : List Char) :
    (s ++ ['\n'] ++ r).dropInfix? ['\n'] = some (s, r) :=
  dropInfix_of_clear (clear_of_head hs)

theorem readBlocks_block {b : Block} (hb : b.Framed) (fuel : ℕ) (rest : List Char) :
    readBlocks (fuel + 1) (b.text ++ rest) = (readBlocks fuel rest).map fun x => (b :: x.1, x.2) := by
  have hopen : (b.text ++ rest).dropPrefix? imStart = some (b.role ++ ['\n'] ++ (b.body ++ imEnd ++ '\n' :: rest)) := by
    refine List.dropPrefix?_eq_some_iff.mpr ⟨imStart, ?_, BEq.rfl⟩
    unfold Block.text
    simp only [List.append_assoc, List.cons_append, List.nil_append]
  have hclose : (b.body ++ imEnd ++ '\n' :: rest).dropInfix? imEnd = some (b.body, '\n' :: rest) :=
    dropInfix_of_clear (clear_of_stop hb.stop (by decide))
  have hne : b.text ++ rest ≠ [] := by
    intro hnil
    rw [hnil] at hopen
    cases hopen
  have hline : ('\n' :: rest).dropPrefix? ['\n'] = some rest :=
    List.dropPrefix?_eq_some_iff.mpr ⟨['\n'], rfl, BEq.rfl⟩
  rw [readBlocks, if_neg hne]
  simp only [hopen, dropInfix_newline hb.role, hclose, if_neg hb.start, hline, Option.bind_eq_bind, Option.bind_some]
  cases readBlocks fuel rest <;> rfl

/-- Blocks are read back as they were written. -/
theorem readBlocks_text {rest : List Char} {last : Option Block} (hrest : readBlocks 1 rest = some ([], last)) :
    ∀ {bs : List Block}, (∀ b ∈ bs, b.Framed) →
      readBlocks (bs.length + 1) (bs.flatMap Block.text ++ rest) = some (bs, last)
  | [], _ => hrest
  | b :: bs, hbs => by
    obtain ⟨hb, hbs⟩ := List.forall_mem_cons.mp hbs
    rw [List.flatMap_cons, List.append_assoc, List.length_cons, readBlocks_block hb, readBlocks_text hrest hbs]
    rfl

end Chat
end Siphon
