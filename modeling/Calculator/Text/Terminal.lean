/-!
# What a terminal shows of a text

A control sequence begins with the escape character, and nothing of it is shown.  Sequences are
made of bytes; those of a character beyond ASCII mean nothing in them, but for the one that ends a
string.  Of the control characters by themselves only those that lay out a text stay.

A text without control characters is shown as it is (`TerminalState.shown_eq_self`).
-/

namespace Calculator.Text

/-- What the next character of a text is part of. -/
inductive TerminalState where
  /-- The text itself. -/
  | plain
  /-- A sequence of which only the escape character is known. -/
  | escape
  /-- A sequence without parameters, behind a character that is not its last one. -/
  | intermediate
  /-- A sequence with parameters, introduced by a bracket. -/
  | parameters
  /-- A command to the terminal, which a bell may end. -/
  | command
  /-- A device string of which nothing is known yet. -/
  | device
  /-- The parameters of a device string. -/
  | deviceParameters
  /-- The part of a device string between its parameters and its data. -/
  | deviceIntermediate
  /-- The data of a device string, or a string of another kind. -/
  | string
deriving DecidableEq

namespace TerminalState

/-- The control characters that lay out a text. -/
def isLayout (c : Char) : Bool := c = '\t' || c = '\n' || c = '\x0c' || c = '\r'

/-- Where a control character leads that neither begins nor cancels a sequence, and whether it is
    shown.  In commands and strings it is data; elsewhere one that lays out the text ends the
    sequence. -/
def control (c : Char) : TerminalState → List Char × TerminalState
  | command => ([], if c = '\x07' then plain else command)
  | device => ([], device)
  | deviceParameters => ([], deviceParameters)
  | deviceIntermediate => ([], deviceIntermediate)
  | string => ([], string)
  | state => if isLayout c then ([c], plain) else ([], state)

/-- Where a printable ASCII character leads that is part of a sequence. -/
def next (c : Char) : TerminalState → TerminalState
  | plain => plain
  | escape =>
    if c < '0' then intermediate
    else if c = '[' then parameters
    else if c = ']' then command
    else if c = 'P' then device
    else if c = 'X' || c = '^' || c = '_' then string
    else plain
  | intermediate => if c < '0' then intermediate else plain
  | parameters => if c < '@' then parameters else plain
  | command => command
  | device =>
    if c < '0' then deviceIntermediate else if c < '@' then deviceParameters else string
  | deviceParameters =>
    if c < '0' then deviceIntermediate else if c < '<' then deviceParameters else string
  | deviceIntermediate => if c < '0' then deviceIntermediate else string
  | string => string

/-- The byte that ends a string. -/
def stringTerminator : UInt8 := 0x9c

/-- Where a character beyond ASCII leads that is part of a sequence. -/
def nextBeyond (c : Char) : TerminalState → TerminalState
  | string => if (String.utf8EncodeChar c).contains stringTerminator then plain else string
  | state => state

/-- What is shown of a character, and what the next one is part of. -/
def step (state : TerminalState) (c : Char) : List Char × TerminalState :=
  if c = '\x1b' then ([], escape)
  else if c = '\x18' || c = '\x1a' then ([], plain)
  else if c < ' ' || c = '\x7f' then control c state
  else if state = plain then ([c], plain)
  else if '\x7f' < c then ([], nextBeyond c state)
  else ([], next c state)

/-- What is shown of the rest of a text. -/
def shown : TerminalState → List Char → List Char
  | _, [] => []
  | state, c :: cs => (step state c).1 ++ shown (step state c).2 cs

theorem step_plain {c : Char} (h : ¬ c < ' ') (hc : c ≠ '\x7f') : step plain c = ([c], plain) := by
  have escapes (d : Char) (hd : d < ' ') : c ≠ d := fun e => h (e ▸ hd)
  simp [step, h, hc, escapes '\x1b' (by decide), escapes '\x18' (by decide),
    escapes '\x1a' (by decide)]

/-- A text without control characters is shown as it is. -/
theorem shown_eq_self (text : List Char) (h : ∀ c ∈ text, ¬ c < ' ' ∧ c ≠ '\x7f') :
    shown plain text = text := by
  induction text with
  | nil => rfl
  | cons c cs ih =>
    have hc := h c List.mem_cons_self
    rw [shown, step_plain hc.1 hc.2, ih fun d hd => h d (List.mem_cons_of_mem c hd)]
    rfl

end TerminalState

/-- What a terminal shows of a text. -/
def shown (text : String) : String := String.ofList (TerminalState.shown .plain text.toList)

example : shown "a\x1béb[2mc" = "a[2mc" ∧ shown "\x1bXaébÜc" = "c" := by decide +kernel

example : shown "a\x1b[1mb\x1b]0;c\x07d\x08\te\x1b(Bf\x1b[9" = "abd\tef" := by decide +kernel

end Calculator.Text
