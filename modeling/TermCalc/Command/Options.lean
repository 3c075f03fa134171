import TermCalc.Text.Class

/-!
# Options

The words of a command line and what they ask for. Words that start with a hyphen are switches,
which may be shortened as long as they stay unique; the argument of a switch may be its own word
or a part of the switch's. Several short switches may share a word. Everything behind `--` is taken
as it stands.

* `Switch`, `Switch.spellings`.
* `Word`, `Word.ofText?`: a word by itself; none for a shortened switch that stands for several.
* `Word.ofSharing`: what a word that begins with `-h` and goes on asks for.
* `Word.all?`: the words of a command line.
* `AskedExpression`, `Options`: what a command line asks for.
* `Options.ofArguments`: the options of a command line, or why it is refused.
-/

namespace TermCalc

/-- **What a word that starts with a hyphen can ask for.** -/
inductive Switch where
  | help | expression | tokens | parse | listBuiltins | verbose
  deriving DecidableEq, Repr

/-- The spellings of the switches. -/
def Switch.spellings : List (String × Switch) :=
  [("-h", help), ("--help", help), ("-e", expression), ("--expression", expression),
   ("--tokens", tokens), ("--parse", parse), ("--list-builtins", listBuiltins),
   ("--verbose", verbose)]

/-- **A word of a command line.** -/
inductive Word where
  | plain (text : String)
  | separator
  /-- A switch by itself, or with a text attached: behind an equals sign, or right behind a short
  switch. -/
  | switch (s : Switch) (attached : Option String)
  /-- Help, and behind it in the same word a switch for an expression. -/
  | helpAnd (attached : Option String)
  /-- A switch with something attached that it does not take. -/
  | spoilt
  | unknown
  deriving DecidableEq, Repr

namespace Word

/-- Whether a word that starts with a hyphen is a negative number, which is no switch. The line feed
that may end it does not count. -/
def isNegativeNumber (text : List Char) : Bool :=
  match text with
  | '-' :: rest =>
    let rest := if rest.getLast? == some '\n' then rest.dropLast else rest
    match rest.dropWhile isDecimal with
    | [] => !rest.isEmpty
    | '.' :: fraction => !fraction.isEmpty && fraction.all isDecimal
    | _ => false
  | _ => false

/-- The part of a word before its first equals sign, and the part behind it. -/
def splitAtEquals (text : List Char) : List Char × Option (List Char) :=
  let name := text.takeWhile (· != '=')
  match text.dropWhile (· != '=') with
  | [] => (name, none)
  | _ :: value => (name, some value)

/-- **What goes on behind `-h`** in the same word: more short switches, the last of which may be one
for an expression and have a text attached. -/
def ofSharing : List Char → Word
  | ['h'] => switch .help none
  | 'h' :: rest => ofSharing rest
  | ['e'] => helpAnd none
  | 'e' :: text => helpAnd (some (String.ofList text))
  | _ => spoilt

/-- A switch, short or long, to which a text may be attached. Only the expression takes one. -/
def ofSwitch (s : Switch) (isShort : Bool) : Option (List Char) → Word
  | none => switch s none
  | some text =>
    if s = .expression then switch s (some (String.ofList text))
    else if isShort then ofSharing text
    else spoilt

/-- The switches that a word may be short for. -/
def candidates (text : List Char) : List Word :=
  let (name, value) := splitAtEquals text
  match text with
  | '-' :: '-' :: _ =>
    (Switch.spellings.filter fun (spelling, _) => name.isPrefixOf spelling.toList).map
      fun (_, s) => ofSwitch s false value
  | '-' :: letter :: rest =>
    (Switch.spellings.lookup (String.ofList ['-', letter])).toList.map
      fun s => ofSwitch s true (some rest)
  | _ => []

/-- The switch that is spelled by the part of a word before its first equals sign. -/
def assignment? (text : List Char) : Option Word := do
  let (name, value) := splitAtEquals text
  let value ← value
  let s ← Switch.spellings.lookup (String.ofList name)
  return ofSwitch s (name.length == 2) (some value)

/-- **A word by itself.** -/
def ofText? (text : String) : Option Word :=
  match text.toList with
  | '-' :: second :: rest =>
    let cs := '-' :: second :: rest
    match Switch.spellings.lookup text, assignment? cs with
    | some s, _ => some (switch s none)
    | none, some w => some w
    | none, none =>
      match candidates cs with
      | [w] => some w
      | [] => some (if isNegativeNumber cs || cs.contains ' ' then plain text else unknown)
      | _ => none
  | _ => some (plain text)

/-- **The words of a command line.** Behind the separator all are plain. -/
def all? : List String → Option (List Word)
  | [] => some []
  | text :: texts =>
    if text == "--" then some (separator :: texts.map plain)
    else do
      let w ← ofText? text
      let ws ← all? texts
      return w :: ws

end Word

/-- What a command line says about an expression. -/
inductive AskedExpression where
  | unsaid
  | given (text : String)
  /-- An expression is asked for, but its text is taken for a separator and dropped. -/
  | dropped
  deriving DecidableEq, Repr

/-- The expression that an attached text stands for. -/
def AskedExpression.ofAttached (text : String) : AskedExpression :=
  if text == "--" then dropped else given text

/-- **What a command line asks for.** -/
structure Options where
  input : Option String
  expression : AskedExpression
  tokens : Bool
  parse : Bool
  listBuiltins : Bool
  verbose : Bool
  deriving DecidableEq, Repr

/-- Why a command line is not carried out. -/
inductive Refusal where
  | help | misuse
  deriving DecidableEq, Repr

namespace Options

/-- A command line that asks for nothing. -/
def initial : Options := ⟨none, .unsaid, false, false, false, false⟩

/-- What a switch asks for, given the text attached to it. -/
def turnOn (o : Options) : Switch → Option String → Except Refusal Options
  | .expression, some text => .ok { o with expression := .ofAttached text }
  | .tokens, none => .ok { o with tokens := true }
  | .parse, none => .ok { o with parse := true }
  | .listBuiltins, none => .ok { o with listBuiltins := true }
  | .verbose, none => .ok { o with verbose := true }
  | .help, none => .error .help
  | _, _ => .error .misuse

/-- **Go through the words.** `surplus` says that a word was left over, which is no failure before
the end: help may still be asked for. `fresh` says that the word before was taken as the input; a
separator directly behind it is allowed. -/
def ofWords (o : Options) (surplus fresh : Bool) : List Word → Except Refusal Options
  | [] => if surplus then .error .misuse else .ok o
  | .plain text :: rest =>
    match o.input with
    | none => ofWords { o with input := some text } surplus true rest
    | some _ => ofWords o true false rest
  | .separator :: rest => ofWords o (surplus || (o.input.isSome && !fresh)) false rest
  | .unknown :: rest => ofWords o true false rest
  | .spoilt :: _ => .error .misuse
  | .helpAnd none :: .plain _ :: _ => .error .help
  | .helpAnd attached :: _ => .error (if attached.isSome then .help else .misuse)
  | .switch .expression none :: .plain text :: rest =>
    ofWords { o with expression := .given text } surplus false rest
  | .switch s attached :: rest =>
    match o.turnOn s attached with
    | .ok o => ofWords o surplus false rest
    | .error refusal => .error refusal

/-- **What a command line asks for**, or why it is refused. -/
def ofArguments (arguments : List String) : Except Refusal Options :=
  match Word.all? arguments with
  | none => .error .misuse
  | some words => initial.ofWords false false words

end Options

end TermCalc
