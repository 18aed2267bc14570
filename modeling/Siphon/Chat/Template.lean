/-
# The chat template

`render` writes a conversation the way the template does, branch for branch:
the system block, the scan back for the last user query, one block for each
message, and the prompt for a new answer. The scan runs before the loop and so
do its errors. Text is a list of characters.

The loop of the source reads the roles of the messages beside the one it
writes; here it carries the role before and looks at the list behind.
-/
import Siphon.Lib.Search
import Siphon.Pyjson.Model

namespace Siphon
namespace Chat

open Pyjson (Value LowerExp showNat)

/-! ### Messages -/

inductive Role where
  | system
  | user
  | assistant
  | tool
  | other (name : List Char)
  deriving DecidableEq

/-- One element of a structured message. -/
inductive Part where
  | text (s : List Char)
  | image
  | video
  | other

/-- A message body. -/
inductive Content where
  | text (s : List Char)
  | parts (ps : List Part)
  | none
  | unsupported

/-- A call, with its arguments in the order they were written. -/
structure FunctionCall where
  name : List Char
  arguments : List (List Char × Value)

/-- A message. Reasoning that is given keeps the content from being searched
for it, so an empty one is not the same as none. -/
structure Message where
  role : Role
  content : Content
  reasoning : Option (List Char)
  toolCalls : List FunctionCall

structure Options where
  addGenerationPrompt : Bool
  enableThinking : Bool
  addVisionId : Bool

structure Request where
  messages : List Message
  tools : List Value
  opts : Options

/-- How many images and videos were written. -/
structure Counts where
  images : ℕ
  videos : ℕ
  deriving DecidableEq

structure Rendered where
  text : List Char
  counts : Counts
  deriving DecidableEq

/-! ### The texts of the template -/

def imStart : List Char := "<|im_start|>".toList
def imEnd : List Char := "<|im_end|>".toList
def thinkOpen : List Char := "<think>".toList
def thinkClose : List Char := "</think>".toList

def toolsPrefix : List Char :=
  "# Tools\n\nYou have access to the following functions:\n\n<tools>".toList

def toolsInstructions : List Char :=
  ("\n\nIf you choose to call a function ONLY reply in the following format with NO suffix:\n\n" ++
    "<tool_call>\n<function=example_function_name>\n<parameter=example_parameter_1>\nvalue_1\n</parameter>\n" ++
    "<parameter=example_parameter_2>\nThis is the value for the second parameter\nthat can span\n" ++
    "multiple lines\n</parameter>\n</function>\n</tool_call>\n\n<IMPORTANT>\nReminder:\n" ++
    "- Function calls MUST follow the specified format: an inner <function=...></function> block must be " ++
    "nested within <tool_call></tool_call> XML tags\n- Required parameters MUST be specified\n" ++
    "- You may provide optional reasoning for your function call in natural language BEFORE the function " ++
    "call, but NOT after\n- If there is no function call available, answer the question like normal with " ++
    "your current knowledge and do not tell the user about function calls\n</IMPORTANT>").toList

def errNoMessages : String := "No messages provided."
def errSystemNotFirst : String := "System message must be at the beginning."
def errNoUserQuery : String := "No user query found in messages."
def errUnexpectedRole : String := "Unexpected message role."
def errSystemImage : String := "System message cannot contain images."
def errSystemVideo : String := "System message cannot contain videos."
def errItemType : String := "Unexpected item type in content."
def errContentType : String := "Unexpected content type."

/-! ### Content -/

/-- `is_python_space`. -/
def isPythonSpace (c : Char) : Bool := (0x1c ≤ c.toNat ∧ c.toNat ≤ 0x1f) ∨ Utf8.isWhiteSpace c

/-- `jinja_trim`. -/
def jinjaTrim (s : List Char) : List Char := Search.strip isPythonSpace s

section Content

variable (doCount isSystem addVisionId : Bool)

/-- One part, and the counts behind it. -/
def renderPart (k : Counts) : Part → Except String (List Char × Counts)
  | .image =>
    if isSystem then .error errSystemImage
    else
      let k := if doCount then { k with images := k.images + 1 } else k
      .ok ((if addVisionId then "Picture ".toList ++ showNat k.images ++ ": ".toList else []) ++
        "<|vision_start|><|image_pad|><|vision_end|>".toList, k)
  | .video =>
    if isSystem then .error errSystemVideo
    else
      let k := if doCount then { k with videos := k.videos + 1 } else k
      .ok ((if addVisionId then "Video ".toList ++ showNat k.videos ++ ": ".toList else []) ++
        "<|vision_start|><|video_pad|><|vision_end|>".toList, k)
  | .text t => .ok (t, k)
  | .other => .error errItemType

/-- The loop over the parts. -/
def renderParts : List Part → List Char → Counts → Except String (List Char × Counts)
  | [], out, k => .ok (out, k)
  | p :: ps, out, k => do
    let (text, k) ← renderPart doCount isSystem addVisionId k p
    renderParts ps (out ++ text) k

/-- `render_content`. -/
def renderContent (c : Content) (k : Counts) : Except String (List Char × Counts) :=
  match c with
  | .text s => .ok (s, k)
  | .none => .ok ([], k)
  | .unsupported => .error errContentType
  | .parts ps => renderParts doCount isSystem addVisionId ps [] k

end Content

/-! ### One message -/

section Render

variable (lowerExp : LowerExp)

/-- `argument_text`. -/
def argumentText : Value → List Char
  | .array vs => Pyjson.dumps lowerExp (.array vs)
  | .object kvs => Pyjson.dumps lowerExp (.object kvs)
  | v => Pyjson.pyStr lowerExp v

/-- The reasoning and the content of an assistant message: the reasoning that
is given, or what stands in a think block of the content. -/
def splitReasoning (reasoning : Option (List Char)) (content : List Char) : List Char × List Char :=
  match reasoning with
  | some r => (r, content)
  | none =>
    match content.dropInfix? thinkClose with
    | none => ([], content)
    | some (head, _) =>
      let head := head.rdropWhile (· = '\n')
      let head := (Search.afterLast thinkOpen head).getD head
      let tail := (Search.afterLast thinkClose content).getD content
      (head.dropWhile (· = '\n'), tail.dropWhile (· = '\n'))

def parameterText (p : List Char × Value) : List Char :=
  "<parameter=".toList ++ p.1 ++ ">\n".toList ++ argumentText lowerExp p.2 ++ "\n</parameter>\n".toList

/-- A call, from its name on. -/
def callText (c : FunctionCall) : List Char :=
  c.name ++ ">\n".toList ++ c.arguments.flatMap (parameterText lowerExp) ++ "</function>\n</tool_call>".toList

/-- The calls behind the content. -/
def callsText (content : List Char) : List FunctionCall → List Char
  | [] => []
  | c :: cs =>
    (if jinjaTrim content ≠ [] then "\n\n<tool_call>\n<function=".toList else "<tool_call>\n<function=".toList) ++
      callText lowerExp c ++ cs.flatMap fun c => "\n<tool_call>\n<function=".toList ++ callText lowerExp c

/-- What stands between the marker of an assistant message and its end. -/
def assistantText (afterQuery : Bool) (m : Message) (content : List Char) : List Char :=
  let (reasoning, content) := splitReasoning m.reasoning content
  let reasoning := jinjaTrim reasoning
  (if afterQuery then
    thinkOpen ++ ['\n'] ++ reasoning ++ ['\n'] ++ thinkClose ++ ['\n', '\n'] ++ content
  else content) ++ callsText lowerExp content m.toolCalls

/-- The block of one message, at index `i`. -/
def messageText (lastQueryIndex i : ℕ) (before after : Option Role) (m : Message) (content : List Char) :
    Except String (List Char) :=
  match m.role with
  | .system => if i ≠ 0 then .error errSystemNotFirst else .ok []
  | .user => .ok (imStart ++ "user\n".toList ++ content ++ imEnd ++ ['\n'])
  | .assistant =>
    .ok (imStart ++ "assistant\n".toList ++ assistantText lowerExp (lastQueryIndex < i) m content ++ imEnd ++ ['\n'])
  | .tool =>
    .ok ((if before.isSome ∧ before ≠ some .tool then imStart ++ "user".toList else []) ++
      "\n<tool_response>\n".toList ++ content ++ "\n</tool_response>".toList ++
      (if after ≠ some .tool then imEnd ++ ['\n'] else []))
  | .other _ => .error errUnexpectedRole

/-! ### The conversation -/

/-- The content of a system message at the beginning, if there is one. -/
def systemContent (req : Request) (k : Counts) : Except String (Option (List Char) × Counts) :=
  match req.messages with
  | [] => .ok (none, k)
  | m :: _ =>
    if m.role = .system then do
      let (c, k) ← renderContent false true req.opts.addVisionId m.content k
      .ok (some (jinjaTrim c), k)
    else .ok (none, k)

/-- The system block: with tools, their description and the content of the
system message behind it; without tools, the content alone. -/
def systemBlock (tools : List Value) (content : Option (List Char)) : List Char :=
  if tools ≠ [] then
    let c := content.getD []
    imStart ++ "system\n".toList ++ toolsPrefix ++ (tools.flatMap fun t => '\n' :: Pyjson.dumps lowerExp t) ++
      "\n</tools>".toList ++ toolsInstructions ++ (if c ≠ [] then ['\n', '\n'] ++ c else []) ++ imEnd ++ ['\n']
  else
    match content with
    | some c => imStart ++ "system\n".toList ++ c ++ imEnd ++ ['\n']
    | none => []

/-- A user message that only hands back what a tool said. -/
def wrapsResponse (c : List Char) : Bool :=
  "<tool_response>".toList <+: c ∧ "</tool_response>".toList <:+ c

/-- The scan for the last user query, over the messages from the last on: its
index is how many messages stand before it. -/
def lastQuery (addVisionId : Bool) (k : Counts) : List Message → Except String (Option ℕ)
  | [] => .ok none
  | m :: ms =>
    if m.role = .user then do
      let (c, _) ← renderContent false false addVisionId m.content k
      if wrapsResponse (jinjaTrim c) then lastQuery addVisionId k ms else .ok (some ms.length)
    else lastQuery addVisionId k ms

/-- `last_query_index`. -/
def queryIndex (req : Request) (k : Counts) : Except String ℕ := do
  let query ← lastQuery req.opts.addVisionId k req.messages.reverse
  Fallible.orElse errNoUserQuery query

/-- The main loop. -/
def renderMessages (addVisionId : Bool) (lastQueryIndex : ℕ) : ℕ → Option Role → List Message → List Char →
    Counts → Except String (List Char × Counts)
  | _, _, [], out, k => .ok (out, k)
  | i, before, m :: ms, out, k => do
    let (c, k) ← renderContent true false addVisionId m.content k
    let text ← messageText lowerExp lastQueryIndex i before (ms.head?.map (·.role)) m (jinjaTrim c)
    renderMessages addVisionId lastQueryIndex (i + 1) (some m.role) ms (out ++ text) k

/-- The prompt for a new answer. -/
def generationPrompt (opts : Options) : List Char :=
  if opts.addGenerationPrompt then
    imStart ++ "assistant\n".toList ++
      (if opts.enableThinking then thinkOpen ++ ['\n']
      else thinkOpen ++ ['\n', '\n'] ++ thinkClose ++ ['\n', '\n'])
  else []

/-- `render`. -/
def render (req : Request) : Except String Rendered :=
  if req.messages = [] then .error errNoMessages
  else do
    let (c, k) ← systemContent req ⟨0, 0⟩
    let lastQueryIndex ← queryIndex req k
    let (out, k) ← renderMessages lowerExp req.opts.addVisionId lastQueryIndex 0 none req.messages
      (systemBlock lowerExp req.tools c) k
    .ok ⟨out ++ generationPrompt req.opts, k⟩

end Render

end Chat
end Siphon
