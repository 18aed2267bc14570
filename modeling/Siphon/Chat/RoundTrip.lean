/-
# Rendering, parsing and rendering again

A text the template writes for an assistant message after the last user query
is read back by `parseAssistant`: the parser trims where the template trimmed,
and no marker it looks for begins earlier than the one the template wrote.
Each part of the text is `Search.Clear` of the marker by itself: a literal
because none of its suffixes begins the marker, and a name, a key or a value
because the letter behind it cannot continue a marker it holds a beginning of.
-/
import Siphon.Chat.Frame
import Siphon.Chat.Parse

namespace Siphon
namespace Chat

open Search Fallible
open Pyjson (LowerExp Value)

variable {lowerExp : LowerExp}

/-! ### What a message may hold -/

/-- The name of a call, or the key of an argument. -/
structure NameOk (n : List Char) : Prop where
  tag : ¬">\n".toList <:+: n
  close : ¬"</tool_call".toList <:+: n

/-- The text of an argument. -/
structure ValueOk (v : List Char) : Prop where
  tag : ¬"\n</parameter>".toList <:+: v
  close : ¬"</tool_call>".toList <:+: v

structure CallOk (lowerExp : LowerExp) (c : FunctionCall) : Prop where
  ne : c.name ≠ []
  name : NameOk c.name
  key : ∀ a ∈ c.arguments, NameOk a.1
  value : ∀ a ∈ c.arguments, ValueOk (argumentText lowerExp a.2)

/-- An assistant message that does not hold the markers around its parts. -/
structure Plain (lowerExp : LowerExp) (m : Message) (s : List Char) : Prop where
  implicit : m.reasoning = none → ¬thinkClose <:+: s
  thinkOpen : ∀ r ∈ m.reasoning, ¬thinkOpen <:+: r
  thinkClose : ∀ r ∈ m.reasoning, ¬thinkClose <:+: r
  content : ¬"<tool_call>".toList <:+: s
  calls : ∀ c ∈ m.toolCalls, CallOk lowerExp c

/-- A call with the texts of its arguments. -/
def readCall (lowerExp : LowerExp) (c : FunctionCall) : Chatparse.FunctionCall :=
  ⟨c.name, c.arguments.map fun a => (a.1, argumentText lowerExp a.2)⟩

/-! ### White space -/

theorem isPythonSpace_newline {c : Char} (h : decide (c = '\n')) : isPythonSpace c := by
  rw [of_decide_eq_true h]
  decide

theorem newline_of_mem {t : List Char} (h : t = ['\n'] ∨ t = ['\n', '\n']) : ∀ c ∈ t, isPythonSpace c := by
  intro c hc
  rcases h with rfl | rfl
  · exact isPythonSpace_newline (by simpa using hc)
  · exact isPythonSpace_newline (by simpa using hc)

theorem tight_jinjaTrim (s : List Char) : Tight isPythonSpace (jinjaTrim s) := tight_strip _ s

theorem jinjaTrim_jinjaTrim (s : List Char) : jinjaTrim (jinjaTrim s) = jinjaTrim s := strip_strip _ s

/-- A trimmed text does not begin with a newline. -/
theorem dropWhile_newline {s : List Char} (h : Tight isPythonSpace s) (hs : s ≠ []) (t : List Char) :
    (s ++ t).dropWhile (· = '\n') = s ++ t := by
  obtain ⟨c, u, rfl⟩ := List.exists_cons_of_ne_nil hs
  have hc := h.1 c u rfl
  refine List.dropWhile_cons_of_neg ?_
  intro hn
  rw [isPythonSpace_newline hn] at hc
  cases hc

theorem tight_newline {s : List Char} (h1 : s.head? = some '<') (h2 : s.getLast? = some '>') :
    Tight (· = '\n') s := by
  constructor
  · rintro x u rfl
    rw [List.head?_cons, Option.some.injEq] at h1
    rw [h1]
    rfl
  · rintro x u rfl
    rw [List.getLast?_concat, Option.some.injEq] at h2
    rw [h2]
    rfl

theorem getLast_append {s t : List Char} {c : Char} (h : t.getLast? = some c) : (s ++ t).getLast? = some c := by
  rw [List.getLast?_append, h]
  rfl

theorem rdropWhile_newline {s : List Char} (h : s.getLast? = some '>') : s.rdropWhile (· = '\n') = s := by
  rw [List.rdropWhile_eq_self_iff]
  intro hs
  rw [List.getLast?_eq_some_getLast hs, Option.some.injEq] at h
  rw [h]
  decide

/-! ### One parameter -/

/-- A parameter without the newline behind it. -/
def parameterCore (lowerExp : LowerExp) (a : List Char × Value) : List Char :=
  "<parameter=".toList ++ (a.1 ++ ">\n".toList ++ (argumentText lowerExp a.2 ++ "\n</parameter>".toList))

theorem parameterText_eq (a : List Char × Value) : parameterText lowerExp a = parameterCore lowerExp a ++ ['\n'] := by
  unfold parameterText parameterCore
  simp only [List.append_assoc]
  rfl

/-- What `parseParameter` does with a parameter of the right form. -/
theorem parseParameter_eq {rest r key r₁ value r₂ : List Char}
    (h1 : rest.dropPrefix? "<parameter=".toList = some r) (h2 : r.dropInfix? ">\n".toList = some (key, r₁))
    (h3 : (r₁.dropInfix? "\n</parameter>\n".toList).or (r₁.dropInfix? "\n</parameter>".toList) = some (value, r₂)) :
    Chatparse.parseParameter rest = .ok ((key, value), r₂.dropWhile (· = '\n')) := by
  unfold Chatparse.parseParameter
  rw [h1]
  show (orElse _ (r.dropInfix? ">\n".toList) >>= _) = _
  rw [h2]
  show (orElse _ ((r₁.dropInfix? "\n</parameter>\n".toList).or (r₁.dropInfix? "\n</parameter>".toList)) >>= _) = _
  rw [h3]
  rfl

section Parameter

variable {a : List Char × Value} (hk : NameOk a.1) (hv : ValueOk (argumentText lowerExp a.2))

include hk in
/-- The key ends at the first tag. -/
theorem key_found (r : List Char) : (a.1 ++ ">\n".toList ++ r).dropInfix? ">\n".toList = some (a.1, r) :=
  dropInfix_of_clear (clear_of_stop hk.tag (by decide))

include hv in
theorem clear_value (r : List Char) : Clear "\n</parameter>".toList (argumentText lowerExp a.2) ('\n' :: r) :=
  clear_of_stop hv.tag (by decide)

include hv in
/-- The value ends at the first closing tag with a newline. -/
theorem value_found (r : List Char) :
    (argumentText lowerExp a.2 ++ "\n</parameter>\n".toList ++ r).dropInfix? "\n</parameter>\n".toList =
      some (argumentText lowerExp a.2, r) :=
  dropInfix_of_clear ((clear_value hv _).longer ['\n'])

include hv in
/-- The last value is found without the newline. -/
theorem lastValue_found :
    ((argumentText lowerExp a.2 ++ "\n</parameter>".toList).dropInfix? "\n</parameter>\n".toList).or
      ((argumentText lowerExp a.2 ++ "\n</parameter>".toList).dropInfix? "\n</parameter>".toList) =
      some (argumentText lowerExp a.2, []) := by
  have h1 : (argumentText lowerExp a.2 ++ "\n</parameter>".toList).dropInfix? "\n</parameter>\n".toList = none := by
    rw [dropInfix_eq_none]
    refine not_infix_of_clear (by decide) (Clear.append ?_ ?_)
    · exact (clear_value hv _).longer ['\n']
    · exact clear_of_not_infix (by decide)
  have h2 := dropInfix_of_clear (b := []) (clear_value hv "</parameter>".toList)
  rw [h1]
  simpa using h2

include hk hv

theorem parseParameter_next (r : List Char) (hr : r.head? = some '<') :
    Chatparse.parseParameter (parameterCore lowerExp a ++ '\n' :: r) =
      .ok ((a.1, argumentText lowerExp a.2), r) := by
  have he : parameterCore lowerExp a ++ '\n' :: r = "<parameter=".toList ++
      (a.1 ++ ">\n".toList ++ (argumentText lowerExp a.2 ++ "\n</parameter>\n".toList ++ r)) := by
    unfold parameterCore
    simp only [List.append_assoc]
    rfl
  have hr' : r.dropWhile (· = '\n') = r := by
    cases r with
    | nil => cases hr
    | cons c u =>
      rw [List.head?_cons, Option.some.injEq] at hr
      rw [hr]
      rfl
  have hval : (((argumentText lowerExp a.2 ++ "\n</parameter>\n".toList ++ r).dropInfix?
      "\n</parameter>\n".toList).or
      ((argumentText lowerExp a.2 ++ "\n</parameter>\n".toList ++ r).dropInfix? "\n</parameter>".toList)) =
      some (argumentText lowerExp a.2, r) := by
    rw [value_found hv]
    rfl
  rw [he, parseParameter_eq (List.dropPrefix?_append_of_beq _ BEq.rfl) (key_found hk _) hval, hr']

theorem parseParameter_last :
    Chatparse.parseParameter (parameterCore lowerExp a) = .ok ((a.1, argumentText lowerExp a.2), []) := by
  exact parseParameter_eq (List.dropPrefix?_append_of_beq _ BEq.rfl) (key_found hk _) (lastValue_found hv)

end Parameter

/-! ### The parameters of a call -/

/-- The parameters, with a newline between. -/
def parametersCore (lowerExp : LowerExp) : List (List Char × Value) → List Char
  | [] => []
  | [a] => parameterCore lowerExp a
  | a :: b :: as => parameterCore lowerExp a ++ '\n' :: parametersCore lowerExp (b :: as)

theorem flatMap_parameterText (a : List Char × Value) (as : List (List Char × Value)) :
    (a :: as).flatMap (parameterText lowerExp) = parametersCore lowerExp (a :: as) ++ ['\n'] := by
  induction as generalizing a with
  | nil => simp [parametersCore, parameterText_eq]
  | cons b as ih =>
    rw [List.flatMap_cons, ih b, parameterText_eq, parametersCore]
    simp

theorem parametersCore_head (lowerExp : LowerExp) (a : List Char × Value) (as : List (List Char × Value)) :
    (parametersCore lowerExp (a :: as)).head? = some '<' := by
  cases as with
  | nil => rfl
  | cons b as => rfl

theorem parametersCore_getLast (lowerExp : LowerExp) (a : List Char × Value) (as : List (List Char × Value)) :
    (parametersCore lowerExp (a :: as)).getLast? = some '>' := by
  induction as generalizing a with
  | nil =>
    rw [parametersCore]
    exact getLast_append (getLast_append (getLast_append (by decide)))
  | cons b as ih => rw [parametersCore, List.getLast?_append, List.getLast?_cons, ih b]; rfl

theorem parseParameters_core {as : List (List Char × Value)} (hk : ∀ a ∈ as, NameOk a.1)
    (hv : ∀ a ∈ as, ValueOk (argumentText lowerExp a.2)) : ∀ (fuel : ℕ) (out : List (List Char × List Char)),
    as.length ≤ fuel → Chatparse.parseParameters fuel out (parametersCore lowerExp as) =
      .ok (out ++ as.map fun a => (a.1, argumentText lowerExp a.2)) := by
  induction as with
  | nil =>
    intro fuel out _
    cases fuel <;> simp [Chatparse.parseParameters, parametersCore]
  | cons a as ih =>
    intro fuel out hf
    obtain ⟨fuel, rfl⟩ : ∃ f, fuel = f + 1 := Nat.exists_eq_add_one.mpr (by rw [List.length_cons] at hf; omega)
    rw [List.length_cons] at hf
    have hne : parametersCore lowerExp (a :: as) ≠ [] := by
      intro h
      have := parametersCore_head lowerExp a as
      rw [h] at this
      cases this
    have hka := hk a (by simp)
    have hva := hv a (by simp)
    have ih := ih (fun b hb => hk b (by simp [hb])) (fun b hb => hv b (by simp [hb])) fuel
      (out ++ [(a.1, argumentText lowerExp a.2)]) (by omega)
    rw [Chatparse.parseParameters, if_neg hne]
    cases as with
    | nil =>
      rw [parametersCore, parseParameter_last hka hva]
      exact ih.trans (by simp)
    | cons b as =>
      rw [parametersCore, parseParameter_next hka hva _ (parametersCore_head lowerExp b as)]
      exact ih.trans (by simp)

/-! ### One call -/

/-- What stands between the markers of a call. -/
def blockText (lowerExp : LowerExp) (c : FunctionCall) : List Char :=
  "\n<function=".toList ++ c.name ++ ">\n".toList ++ c.arguments.flatMap (parameterText lowerExp) ++
    "</function>\n".toList

theorem call_eq (lowerExp : LowerExp) (c : FunctionCall) : "<tool_call>\n<function=".toList ++ callText lowerExp c =
    "<tool_call>".toList ++ (blockText lowerExp c ++ "</tool_call>".toList) := by
  unfold callText blockText
  simp only [List.append_assoc]
  rfl

/-- A name does not hold the end of a call, nor does it with its tag. -/
theorem clear_name {n : List Char} (h : NameOk n) (r : List Char) :
    Clear "</tool_call>".toList n (">\n".toList ++ r) :=
  (clear_of_stop h.close (by decide) : Clear "</tool_call".toList n _).longer ['>']

theorem clear_parameters {as : List (List Char × Value)} (hk : ∀ a ∈ as, NameOk a.1)
    (hv : ∀ a ∈ as, ValueOk (argumentText lowerExp a.2)) (r : List Char) :
    Clear "</tool_call>".toList (as.flatMap (parameterText lowerExp)) r := by
  induction as with
  | nil => exact clear_nil
  | cons a as ih =>
    have ih := ih (fun b hb => hk b (by simp [hb])) fun b hb => hv b (by simp [hb])
    rw [List.flatMap_cons]
    refine Clear.append ?_ ih
    unfold parameterText
    refine Clear.append (Clear.append (Clear.append (Clear.append ?_ ?_) ?_) ?_) ?_
    · exact clear_of_literal (by decide)
    · simp only [List.append_assoc]
      exact clear_name (hk a (by simp)) _
    · exact clear_of_literal (by decide)
    · exact clear_of_stop (hv a (by simp)).close (by decide)
    · exact clear_of_literal (by decide)

theorem clear_block {c : FunctionCall} (hc : CallOk lowerExp c) (r : List Char) :
    Clear "</tool_call>".toList (blockText lowerExp c) r := by
  unfold blockText
  refine Clear.append (Clear.append (Clear.append (Clear.append ?_ ?_) ?_) ?_) ?_
  · exact clear_of_literal (by decide)
  · exact clear_name hc.name _
  · exact clear_of_literal (by decide)
  · exact clear_parameters hc.key hc.value _
  · exact clear_of_literal (by decide)

/-- The block without the newlines around it. -/
def blockCore (lowerExp : LowerExp) (c : FunctionCall) : List Char :=
  "<function=".toList ++ (c.name ++ ">\n".toList ++ (c.arguments.flatMap (parameterText lowerExp) ++
    "</function>".toList))

theorem strip_block (c : FunctionCall) : strip (· = '\n') (blockText lowerExp c) = blockCore lowerExp c := by
  have he : blockText lowerExp c = ['\n'] ++ blockCore lowerExp c ++ ['\n'] := by
    unfold blockText blockCore
    simp only [List.append_assoc]
    rfl
  have ht : Tight (· = '\n') (blockCore lowerExp c) := by
    refine tight_newline rfl ?_
    exact getLast_append (getLast_append (getLast_append (by decide)))
  rw [he]
  exact strip_unique (by simp) (by simp) ht

theorem strip_parameters (as : List (List Char × Value)) :
    strip (· = '\n') (as.flatMap (parameterText lowerExp)) = parametersCore lowerExp as := by
  cases as with
  | nil => rfl
  | cons a as =>
    rw [flatMap_parameterText]
    have ht := tight_newline (parametersCore_head lowerExp a as) (parametersCore_getLast lowerExp a as)
    exact strip_unique (l := []) (by simp) (by simp) ht

theorem length_parametersCore (lowerExp : LowerExp) (as : List (List Char × Value)) :
    as.length ≤ (parametersCore lowerExp as).length := by
  induction as with
  | nil => exact le_rfl
  | cons a as ih =>
    have hpos : 0 < (parameterCore lowerExp a).length := Nat.succ_pos _
    cases as with
    | nil =>
      rw [parametersCore, List.length_cons, List.length_nil]
      omega
    | cons b as =>
      rw [parametersCore, List.length_append, List.length_cons, List.length_cons (a := '\n')]
      omega

/-- What `parseOne` does with a block of the right form. -/
theorem parseOne_eq {body rest name rest₁ rest₂ : List Char}
    (h1 : (strip (· = '\n') body).dropPrefix? "<function=".toList = some rest)
    (h2 : rest.dropInfix? ">\n".toList = some (name, rest₁)) (hn : name ≠ [])
    (h3 : (rest₁.rdropWhile (· = '\n')).dropSuffix? "</function>".toList = some rest₂) :
    Chatparse.parseOne body = (Chatparse.parseParameters (strip (· = '\n') rest₂).length []
      (strip (· = '\n') rest₂) >>= fun arguments => .ok ⟨name, arguments⟩) := by
  unfold Chatparse.parseOne
  dsimp only
  rw [h1]
  show (orElse _ (rest.dropInfix? ">\n".toList) >>= _) = _
  rw [h2]
  show (if name = [] then _ else _) = _
  rw [if_neg hn]
  show (orElse _ ((rest₁.rdropWhile (· = '\n')).dropSuffix? "</function>".toList) >>= _) = _
  rw [h3]
  rfl

/-- A block is read as its call. -/
theorem parseOne_block {c : FunctionCall} (hc : CallOk lowerExp c) :
    Chatparse.parseOne (strip (· = '\n') (blockText lowerExp c)) = .ok (readCall lowerExp c) := by
  have hname : (c.name ++ ">\n".toList ++ (c.arguments.flatMap (parameterText lowerExp) ++
      "</function>".toList)).dropInfix? ">\n".toList =
      some (c.name, c.arguments.flatMap (parameterText lowerExp) ++ "</function>".toList) :=
    dropInfix_of_clear (clear_of_stop hc.name.tag (by decide))
  have hend : (c.arguments.flatMap (parameterText lowerExp) ++ "</function>".toList).rdropWhile (· = '\n') =
      c.arguments.flatMap (parameterText lowerExp) ++ "</function>".toList :=
    rdropWhile_newline (getLast_append (by decide))
  have hsuf : (c.arguments.flatMap (parameterText lowerExp) ++ "</function>".toList).dropSuffix?
      "</function>".toList = some (c.arguments.flatMap (parameterText lowerExp)) :=
    List.dropSuffix?_eq_some_iff.mpr ⟨_, rfl, BEq.rfl⟩
  have hpre : (strip (· = '\n') (strip (· = '\n') (blockText lowerExp c))).dropPrefix? "<function=".toList =
      some (c.name ++ ">\n".toList ++ (c.arguments.flatMap (parameterText lowerExp) ++ "</function>".toList)) := by
    rw [strip_strip, strip_block]
    exact List.dropPrefix?_append_of_beq _ BEq.rfl
  have hargs := parseParameters_core hc.key hc.value _ [] (length_parametersCore lowerExp c.arguments)
  rw [parseOne_eq hpre hname hc.ne (hend.symm ▸ hsuf), strip_parameters, hargs]
  rfl

/-! ### All calls -/

section Calls

/-- The calls behind the first. -/
def laterCalls (lowerExp : LowerExp) (cs : List FunctionCall) : List Char :=
  cs.flatMap fun c => "\n<tool_call>\n<function=".toList ++ callText lowerExp c

theorem parseCalls_call {c : FunctionCall} (hc : CallOk lowerExp c) {a r : List Char} {fuel : ℕ}
    {out : List Chatparse.FunctionCall}
    (ha : Clear "<tool_call>".toList a ("<tool_call>".toList ++ (blockText lowerExp c ++ "</tool_call>".toList ++ r))) :
    Chatparse.parseCalls (fuel + 1) out
      (a ++ "<tool_call>".toList ++ (blockText lowerExp c ++ "</tool_call>".toList ++ r)) =
      Chatparse.parseCalls fuel (out ++ [readCall lowerExp c]) r := by
  rw [Chatparse.parseCalls, dropInfix_of_clear ha]
  simp only
  rw [dropInfix_of_clear (clear_block hc _)]
  simp only
  rw [parseOne_block hc]
  rfl

theorem parseCalls_later {cs : List FunctionCall} (hcs : ∀ c ∈ cs, CallOk lowerExp c) :
    ∀ (fuel : ℕ) (out : List Chatparse.FunctionCall), cs.length ≤ fuel →
    Chatparse.parseCalls fuel out (laterCalls lowerExp cs) = .ok (out ++ cs.map (readCall lowerExp)) := by
  induction cs with
  | nil =>
    intro fuel out _
    cases fuel with
    | zero => simp [Chatparse.parseCalls]
    | succ fuel =>
      rw [Chatparse.parseCalls, show laterCalls lowerExp [] = [] from rfl, dropInfix_eq_none.mpr (by decide)]
      simp
  | cons c cs ih =>
    intro fuel out hf
    rw [List.length_cons] at hf
    obtain ⟨fuel, rfl⟩ : ∃ f, fuel = f + 1 := Nat.exists_eq_add_one.mpr (by omega)
    have he : laterCalls lowerExp (c :: cs) = ['\n'] ++ "<tool_call>".toList ++
        (blockText lowerExp c ++ "</tool_call>".toList ++ laterCalls lowerExp cs) := by
      have hc := call_eq lowerExp c
      show ('\n' :: "<tool_call>\n<function=".toList ++ callText lowerExp c) ++ laterCalls lowerExp cs = _
      rw [List.cons_append, hc]
      simp
    rw [he, parseCalls_call (hcs c (by simp)) (clear_of_literal (by decide)),
      ih (fun d hd => hcs d (by simp [hd])) fuel _ (by omega)]
    simp

theorem length_laterCalls (lowerExp : LowerExp) (cs : List FunctionCall) : cs.length ≤ (laterCalls lowerExp cs).length := by
  induction cs with
  | nil => exact le_rfl
  | cons c cs ih =>
    have hpos : 0 < ("\n<tool_call>\n<function=".toList ++ callText lowerExp c).length := Nat.succ_pos _
    unfold laterCalls at ih ⊢
    rw [List.flatMap_cons, List.length_append, List.length_cons]
    omega

/-- What stands between the content and the first call. -/
def separator (content : List Char) : List Char := if content ≠ [] then ['\n', '\n'] else []

theorem separator_space (content : List Char) : ∀ c ∈ separator content, isPythonSpace c := by
  unfold separator
  split
  · exact newline_of_mem (.inr rfl)
  · exact fun _ hc => nomatch hc

theorem callsText_cons {content : List Char} (ht : Tight isPythonSpace content) (c : FunctionCall)
    (cs : List FunctionCall) : content ++ callsText lowerExp content (c :: cs) =
      content ++ separator content ++ "<tool_call>".toList ++
        (blockText lowerExp c ++ "</tool_call>".toList ++ laterCalls lowerExp cs) := by
  have hc := call_eq lowerExp c
  simp only [List.append_assoc, List.append_cancel_left_eq]
  rw [callsText, show jinjaTrim content = content from strip_of_tight ht]
  unfold separator
  by_cases he : content = []
  · rw [if_neg (not_not.mpr he), if_neg (not_not.mpr he), hc]
    simp only [List.nil_append, List.append_assoc]
    rfl
  · rw [if_pos he, if_pos he]
    show (['\n', '\n'] ++ "<tool_call>\n<function=".toList ++ callText lowerExp c) ++ laterCalls lowerExp cs = _
    rw [List.append_assoc ['\n', '\n'], hc]
    simp only [List.append_assoc]

section Body

variable {content : List Char} (ht : Tight isPythonSpace content) (hn : ¬"<tool_call>".toList <:+: content)

include ht hn

omit ht in
theorem clear_content (r : List Char) :
    Clear "<tool_call>".toList (content ++ separator content) ("<tool_call>".toList ++ r) := by
  unfold separator
  by_cases he : content = []
  · rw [if_neg (not_not.mpr he), he]
    exact clear_nil
  · rw [if_pos he]
    refine Clear.append ?_ ?_
    · exact clear_of_stop hn (by decide)
    · exact clear_of_literal (by decide)

/-- The calls behind a content are read. -/
theorem parseToolCalls_body {cs : List FunctionCall} (hcs : ∀ c ∈ cs, CallOk lowerExp c) :
    Chatparse.parseToolCalls (content ++ callsText lowerExp content cs) = .ok (cs.map (readCall lowerExp)) := by
  unfold Chatparse.parseToolCalls
  cases cs with
  | nil =>
    rw [callsText, List.append_nil, Chatparse.parseCalls, dropInfix_eq_none.mpr hn]
    rfl
  | cons c cs =>
    have hlen : cs.length ≤ (content ++ callsText lowerExp content (c :: cs)).length := by
      have := length_laterCalls lowerExp cs
      rw [callsText_cons ht]
      simp only [List.length_append]
      omega
    generalize (content ++ callsText lowerExp content (c :: cs)).length = fuel at hlen
    rw [callsText_cons ht, parseCalls_call (hcs c (by simp)) (clear_content hn _),
      parseCalls_later (fun d hd => hcs d (by simp [hd])) fuel _ hlen]
    rfl

/-- And the content before them. -/
theorem content_found (cs : List FunctionCall) :
    jinjaTrim ((((content ++ callsText lowerExp content cs).dropInfix? "<tool_call>".toList).map (·.1)).getD
      (content ++ callsText lowerExp content cs)) = content := by
  cases cs with
  | nil =>
    rw [callsText, List.append_nil, dropInfix_eq_none.mpr hn]
    exact strip_of_tight ht
  | cons c cs =>
    rw [callsText_cons ht, dropInfix_of_clear (clear_content hn _)]
    show strip isPythonSpace (content ++ separator content) = content
    have h := strip_append (f := isPythonSpace) (l := []) (t := content) (fun _ hc => nomatch hc)
      (separator_space content)
    rw [List.nil_append] at h
    rw [h, strip_of_tight ht]

end Body

end Calls

/-! ### The think block -/

theorem splitReasoning_plain {m : Message} {s : List Char} (hp : Plain lowerExp m s) :
    splitReasoning m.reasoning (jinjaTrim s) = (m.reasoning.getD [], jinjaTrim s) := by
  unfold splitReasoning
  cases hr : m.reasoning with
  | some r => rfl
  | none =>
    have hn : ¬Chat.thinkClose <:+: jinjaTrim s := fun h => hp.implicit hr (h.trans (strip_isInfix _ s))
    simp only
    rw [dropInfix_eq_none.mpr hn]
    rfl

theorem assistantText_plain {m : Message} {s : List Char} (hp : Plain lowerExp m s) :
    assistantText lowerExp true m (jinjaTrim s) =
      thinkOpen ++ ['\n'] ++ jinjaTrim (m.reasoning.getD []) ++ ['\n'] ++ thinkClose ++
        (['\n', '\n'] ++ (jinjaTrim s ++ callsText lowerExp (jinjaTrim s) m.toolCalls)) := by
  unfold assistantText
  rw [splitReasoning_plain hp]
  show (if true = true then _ else _) ++ _ = _
  rw [if_pos rfl]
  simp only [List.append_assoc]

/-- The reasoning and the rest are found again. -/
theorem splitThink_plain {r body : List Char} (hopen : ¬thinkOpen <:+: r) (hclose : ¬thinkClose <:+: r)
    (ht : Tight isPythonSpace r) (hb : body.dropWhile (· = '\n') = body) :
    Chatparse.splitThink (thinkOpen ++ ['\n'] ++ r ++ ['\n'] ++ thinkClose ++ (['\n', '\n'] ++ body)) =
      (some r, body) := by
  have hclear : Clear thinkClose (thinkOpen ++ ['\n'] ++ r ++ ['\n']) (thinkClose ++ (['\n', '\n'] ++ body)) := by
    refine Clear.append (Clear.append ?_ ?_) ?_
    · exact clear_of_literal (by decide)
    · exact clear_of_stop hclose (by decide)
    · exact clear_of_literal (by decide)
  have hafter : afterLast thinkOpen (thinkOpen ++ ['\n'] ++ r ++ ['\n']) = some (['\n'] ++ r ++ ['\n']) := by
    have hc : Clear thinkOpen ("think>".toList ++ (['\n'] ++ r ++ ['\n'])) [] := by
      refine Clear.append ?_ (Clear.append (Clear.append ?_ ?_) ?_)
      · exact clear_of_literal (by decide)
      · exact clear_of_literal (by decide)
      · exact clear_of_stop hopen (by decide)
      · exact clear_of_literal (by decide)
    have h := afterLast_of_clear (x := '<') (p := "think>".toList) hc []
    rw [← h]
    simp only [List.append_assoc]
    rfl
  have htrim : jinjaTrim (['\n'] ++ r ++ ['\n']) = r := by
    unfold jinjaTrim
    rw [strip_append (newline_of_mem (.inl rfl)) (newline_of_mem (.inl rfl)), strip_of_tight ht]
  unfold Chatparse.splitThink
  rw [dropInfix_of_clear hclear]
  simp only
  rw [hafter, Option.getD_some, htrim]
  exact congrArg _ hb

/-! ### The message -/

theorem callsText_head (content : List Char) (cs : List FunctionCall) (h : jinjaTrim content = []) :
    (callsText lowerExp content cs).dropWhile (· = '\n') = callsText lowerExp content cs := by
  cases cs with
  | nil => rfl
  | cons c cs =>
    rw [callsText, if_neg (not_not.mpr h)]
    rfl

/-- A content does not begin with a newline, nor do the calls without it. -/
theorem body_head (s : List Char) (cs : List FunctionCall) :
    (jinjaTrim s ++ callsText lowerExp (jinjaTrim s) cs).dropWhile (· = '\n') =
      jinjaTrim s ++ callsText lowerExp (jinjaTrim s) cs := by
  by_cases he : jinjaTrim s = []
  · rw [he, List.nil_append]
    exact callsText_head [] cs rfl
  · exact dropWhile_newline (tight_jinjaTrim s) he _

/-- What is read from the text of a plain message. -/
def readMessage (lowerExp : LowerExp) (m : Message) (s : List Char) : Chatparse.Reply :=
  ⟨some (jinjaTrim (m.reasoning.getD [])), jinjaTrim s, m.toolCalls.map (readCall lowerExp)⟩

theorem parseAssistant_plain {m : Message} {s : List Char} (hp : Plain lowerExp m s) :
    Chatparse.parseAssistant (assistantText lowerExp true m (jinjaTrim s)) = some (readMessage lowerExp m s) := by
  have hopen : ¬Chat.thinkOpen <:+: jinjaTrim (m.reasoning.getD []) := by
    intro h
    cases hr : m.reasoning with
    | none =>
      rw [hr] at h
      exact absurd h (by decide)
    | some r =>
      rw [hr] at h
      exact hp.thinkOpen r hr (h.trans (strip_isInfix _ r))
  have hclose : ¬Chat.thinkClose <:+: jinjaTrim (m.reasoning.getD []) := by
    intro h
    cases hr : m.reasoning with
    | none =>
      rw [hr] at h
      exact absurd h (by decide)
    | some r =>
      rw [hr] at h
      exact hp.thinkClose r hr (h.trans (strip_isInfix _ r))
  have hn : ¬"<tool_call>".toList <:+: jinjaTrim s := fun h => hp.content (h.trans (strip_isInfix _ s))
  have ht := tight_jinjaTrim s
  unfold Chatparse.parseAssistant
  rw [assistantText_plain hp, splitThink_plain hopen hclose (tight_jinjaTrim _) (body_head s m.toolCalls)]
  dsimp only
  rw [parseToolCalls_body ht hn hp.calls]
  dsimp only
  rw [content_found ht hn m.toolCalls]
  rfl

/-- The message rebuilt from a reply. -/
def ofReply (r : Chatparse.Reply) : Message := ⟨.assistant, .text r.content, r.reasoning, r.asChatCalls⟩

/-- A call whose arguments were read as texts. -/
def retell (lowerExp : LowerExp) (c : FunctionCall) : FunctionCall :=
  ⟨c.name, (readCall lowerExp c).arguments.map fun a => (a.1, .str a.2)⟩

theorem callText_retell (c : FunctionCall) : callText lowerExp (retell lowerExp c) = callText lowerExp c := by
  unfold callText retell readCall
  simp only [List.map_map, List.flatMap_map]
  rfl

/-- Such calls render as before. -/
theorem callsText_retell (content : List Char) (cs : List FunctionCall) :
    callsText lowerExp content (cs.map (retell lowerExp)) = callsText lowerExp content cs := by
  cases cs with
  | nil => rfl
  | cons c cs =>
    rw [List.map_cons, callsText, callsText, callText_retell, List.flatMap_map]
    simp only [callText_retell]

theorem asChatCalls_readMessage (m : Message) (s : List Char) :
    (readMessage lowerExp m s).asChatCalls = m.toolCalls.map (retell lowerExp) := by
  unfold Chatparse.Reply.asChatCalls readMessage
  rw [List.map_map]
  rfl

/-- The rebuilt message has the text of the message. -/
theorem assistantText_ofReply {m : Message} {s : List Char} (hp : Plain lowerExp m s) :
    assistantText lowerExp true (ofReply (readMessage lowerExp m s)) (jinjaTrim (jinjaTrim s)) =
      assistantText lowerExp true m (jinjaTrim s) := by
  rw [assistantText_plain hp, jinjaTrim_jinjaTrim]
  unfold assistantText
  show (if true = true then _ else _) ++ _ = _
  rw [if_pos rfl]
  show thinkOpen ++ ['\n'] ++ jinjaTrim (jinjaTrim (m.reasoning.getD [])) ++ ['\n'] ++ thinkClose ++ ['\n', '\n'] ++
    jinjaTrim s ++ callsText lowerExp (jinjaTrim s) (readMessage lowerExp m s).asChatCalls = _
  rw [jinjaTrim_jinjaTrim, asChatCalls_readMessage, callsText_retell]
  simp only [List.append_assoc]

/-- The text written for a plain assistant message after the last user query
is read as its trimmed reasoning, its trimmed content and its calls, and the
conversation with the message rebuilt from that renders to the same text. -/
theorem render_parse_render {pre post : List Message} {tools : List Value} {opts : Options} {m : Message}
    {s : List Char} {R : Rendered} (hm : m.Says s) (hp : Plain lowerExp m s)
    (hq : AfterQuery ⟨pre ++ m :: post, tools, opts⟩ pre.length)
    (hR : render lowerExp ⟨pre ++ m :: post, tools, opts⟩ = .ok R) :
    ∃ before continuation after reply,
      R.text = before ++ imStart ++ "assistant\n".toList ++ continuation ++ imEnd ++ ['\n'] ++ after ∧
      continuation = assistantText lowerExp true m (jinjaTrim s) ∧
      Chatparse.parseAssistant continuation = some reply ∧
      reply.reasoning = some (jinjaTrim (m.reasoning.getD [])) ∧
      reply.content = jinjaTrim s ∧
      reply.toolCalls = m.toolCalls.map (fun c =>
        ⟨c.name, c.arguments.map fun a => (a.1, argumentText lowerExp a.2)⟩) ∧
      render lowerExp ⟨pre ++ ofReply reply :: post, tools, opts⟩ = .ok R := by
  obtain ⟨a, b, hab⟩ := render_around hm hq hR
  have hself : R = ⟨a ++ assistantBlock lowerExp true m s ++ b, R.counts⟩ := Except.ok.inj (hR.symm.trans (hab m s hm))
  refine ⟨a, assistantText lowerExp true m (jinjaTrim s), b, readMessage lowerExp m s, ?_, rfl,
    parseAssistant_plain hp, rfl, rfl, rfl, ?_⟩
  · rw [hself]
    unfold assistantBlock
    simp only [List.append_assoc]
  · rw [hab (ofReply (readMessage lowerExp m s)) (jinjaTrim s) ⟨rfl, rfl⟩]
    rw [assistantBlock, assistantText_ofReply hp]
    exact congrArg Except.ok hself.symm

/-- A question and an answer with a call. -/
def sampleMessage : Message :=
  ⟨.assistant, .text " x\n".toList, some ['r'], [⟨['f'], [(['a'], .str "1\n".toList), (['b'], .bool true)]⟩]⟩

def sampleRequest (m : Message) : Request :=
  ⟨[⟨.user, .text ['q'], none, []⟩] ++ m :: [], [], ⟨false, false, false⟩⟩

def sampleText : List Char :=
  "<|im_start|>user\nq<|im_end|>\n<|im_start|>assistant\n<think>\nr\n</think>\n\nx\n\n<tool_call>\n".toList ++
    "<function=f>\n<parameter=a>\n1\n\n</parameter>\n<parameter=b>\nTrue\n</parameter>\n".toList ++
    "</function>\n</tool_call><|im_end|>\n".toList

theorem plain_sample : Plain (fun _ => []) sampleMessage " x\n".toList where
  implicit := by simp [sampleMessage]
  thinkOpen := by decide
  thinkClose := by decide
  content := by decide
  calls := by
    intro c hc
    rw [List.mem_singleton.mp hc]
    refine ⟨by decide, ⟨by decide, by decide⟩, ?_, ?_⟩
    · intro a ha
      rcases List.mem_cons.mp ha with rfl | ha
      · exact ⟨by decide, by decide⟩
      · rw [List.mem_singleton.mp ha]
        exact ⟨by decide, by decide⟩
    · intro a ha
      rcases List.mem_cons.mp ha with rfl | ha
      · exact ⟨by decide, by decide⟩
      · rw [List.mem_singleton.mp ha]
        exact ⟨by decide, by decide⟩

theorem render_sample : render (fun _ => []) (sampleRequest sampleMessage) = .ok ⟨sampleText, ⟨0, 0⟩⟩ := by
  decide +kernel

theorem render_parse_render_sample : ∃ before continuation after reply,
    sampleText = before ++ imStart ++ "assistant\n".toList ++ continuation ++ imEnd ++ ['\n'] ++ after ∧
    Chatparse.parseAssistant continuation = some reply ∧
    render (fun _ => []) (sampleRequest (ofReply reply)) = .ok ⟨sampleText, ⟨0, 0⟩⟩ := by
  have hm : sampleMessage.Says " x\n".toList := ⟨rfl, rfl⟩
  have hq : AfterQuery (sampleRequest sampleMessage) 1 := ⟨0, by decide, by decide⟩
  obtain ⟨a, c, b, r, h1, -, h2, -, -, -, h3⟩ := render_parse_render hm plain_sample hq render_sample
  dsimp only at h1
  exact ⟨a, c, b, r, h1, h2, h3⟩

end Chat
end Siphon
