/-
# Reading an answer back

`parseAssistant` takes what a model wrote apart: the reasoning before the
first `</think>`, the calls in `<tool_call>` blocks, and the rest as content.
Every value stays a text. An error in a block makes the whole text content;
two of the error messages quote the first 24 bytes of the text, and cutting
there may fall inside a character, which is a panic.
-/
import Siphon.Chat.Template

namespace Siphon
namespace Chatparse

open Fallible (orElse)
open Pyjson (bytes takeBytes)
open Chat (thinkOpen thinkClose jinjaTrim)

/-- A call recovered from a text. -/
structure FunctionCall where
  name : List Char
  arguments : List (List Char × List Char)
  deriving DecidableEq

structure Reply where
  reasoning : Option (List Char)
  content : List Char
  toolCalls : List FunctionCall
  deriving DecidableEq

/-- `as_chat_calls`. -/
def Reply.asChatCalls (r : Reply) : List Chat.FunctionCall :=
  r.toolCalls.map fun c => ⟨c.name, c.arguments.map fun a => (a.1, .str a.2)⟩

inductive CallError where
  | neverClosed
  | notFunction (body : List Char)
  | functionOpen
  | emptyName
  | functionNeverClosed (name : List Char)
  | notParameter (found : List Char)
  | parameterOpen (found : List Char)
  | parameterNeverClosed (key : List Char)
  deriving DecidableEq

/-- How reading a block stops: with an error, or with a panic. -/
inductive Stop where
  | error (e : CallError)
  | panic
  deriving DecidableEq

/-- `&s[..s.len().min(24)]`. -/
def quote (s : List Char) : Except Stop (List Char) :=
  match takeBytes (min (bytes s) 24) s with
  | some (head, _) => .ok head
  | none => .error .panic

/-- The error that quotes a text. -/
def quoting (e : List Char → CallError) (s : List Char) : Stop :=
  match quote s with
  | .ok head => .error (e head)
  | .error stop => stop

/-- The key and the value of a parameter, and the rest. The value runs to the
first closing tag with a newline behind it, or to the first at all. -/
def parseParameter (rest : List Char) : Except Stop ((List Char × List Char) × List Char) := do
  let r ← orElse (quoting .notParameter rest) (rest.dropPrefix? "<parameter=".toList)
  let (key, r) ← orElse (quoting .parameterOpen r) (r.dropInfix? ">\n".toList)
  let (value, r) ← orElse (.error (.parameterNeverClosed key))
    ((r.dropInfix? "\n</parameter>\n".toList).or (r.dropInfix? "\n</parameter>".toList))
  .ok ((key, value), r.dropWhile (· = '\n'))

/-- The loop over the parameters. Each pass takes a part of the text, so its
length bounds the passes. -/
def parseParameters : ℕ → List (List Char × List Char) → List Char →
    Except Stop (List (List Char × List Char))
  | 0, arguments, _ => .ok arguments
  | fuel + 1, arguments, rest =>
    if rest = [] then .ok arguments
    else do
      let (argument, rest) ← parseParameter rest
      parseParameters fuel (arguments ++ [argument]) rest

/-- `parse_one`. -/
def parseOne (body : List Char) : Except Stop FunctionCall := do
  let body := Search.strip (· = '\n') body
  let rest ← orElse (.error (.notFunction body)) (body.dropPrefix? "<function=".toList)
  let (name, rest) ← orElse (.error .functionOpen) (rest.dropInfix? ">\n".toList)
  if name = [] then .error (.error .emptyName)
  else do
    let rest ← orElse (.error (.functionNeverClosed name))
      ((rest.rdropWhile (· = '\n')).dropSuffix? "</function>".toList)
    let rest := Search.strip (· = '\n') rest
    let arguments ← parseParameters rest.length [] rest
    .ok ⟨name, arguments⟩

/-- The loop of `parse_tool_calls`. -/
def parseCalls : ℕ → List FunctionCall → List Char → Except Stop (List FunctionCall)
  | 0, out, _ => .ok out
  | fuel + 1, out, rest =>
    match rest.dropInfix? "<tool_call>".toList with
    | none => .ok out
    | some (_, after) =>
      match after.dropInfix? "</tool_call>".toList with
      | none => .error (.error .neverClosed)
      | some (block, rest) => do
        let call ← parseOne (Search.strip (· = '\n') block)
        parseCalls fuel (out ++ [call]) rest

/-- `parse_tool_calls`. -/
def parseToolCalls (text : List Char) : Except Stop (List FunctionCall) := parseCalls (text.length + 1) [] text

/-- The reasoning of a text, and what stands behind it. -/
def splitThink (text : List Char) : Option (List Char) × List Char :=
  match text.dropInfix? thinkClose with
  | some (head, body) =>
    (some (jinjaTrim ((Search.afterLast thinkOpen head).getD head)), body.dropWhile (· = '\n'))
  | none => (none, text)

/-- `parse_assistant`; none is a panic. -/
def parseAssistant (text : List Char) : Option Reply :=
  let (reasoning, body) := splitThink text
  match parseToolCalls body with
  | .ok calls =>
    let content := ((body.dropInfix? "<tool_call>".toList).map (·.1)).getD body
    some ⟨reasoning, jinjaTrim content, calls⟩
  | .error (.error _) => some ⟨reasoning, jinjaTrim body, []⟩
  | .error .panic => none

end Chatparse
end Siphon
