import Surmise.Surface.Hint
import Surmise.Surface.Quote
import Surmise.Text.Escape

/-!
# Operands

Names, literals, brackets and what can stand behind an operand: a member, a call, a subscript.
-/

namespace Surmise.Rules

open Parse

variable (rules : Rules)

/-! ## Assignment targets -/

/-- An expression read as a target: a parenthesis is a pattern with one element. -/
def asTarget : Surface → Surface
  | .group inner => .tuple [asTarget inner]
  | .tuple elements => .tuple (asTargets elements)
  | .list elements => .list (asTargets elements)
  | other => other
where
  asTargets : List Surface → List Surface
    | [] => []
    | element :: rest => asTarget element :: asTargets rest

/-! ## Subscripts -/

/-- A bound of a slice, absent before a colon, a comma or the closing bracket. -/
def bound : Parse (Option Surface) := do
  if (← isMark ":") || (← isMark ",") || (← isMark "]") then return none
  else return some (← rules.free)

def subscriptItem : Parse Surface := do
  let lower ← rules.bound
  if ← acceptMark ":" then
    let upper ← rules.bound
    let step ← do
      if ← acceptMark ":" then rules.bound else pure none
    return .slice lower upper step
  else match lower with
    | some index => return index
    | none => fail

/-- The subscript of `value`, behind the opening bracket. -/
def subscriptOf (value : Surface) : Parse Surface := do
  return .subscript value (← commaList "]" rules.subscriptItem)

/-! ## Parameters -/

/-- What a parameter list has been read to so far. -/
structure ParameterState where
  params : List (Parameter Surface) := []
  vararg : Option (VarParameter Surface) := none
  kwarg : Option (VarParameter Surface) := none
  keywordOnly : Bool := false

def ParameterState.push (state : ParameterState) (name : String) (default hint : Option Surface) :
    ParameterState :=
  { state with params := ⟨name, default, hint, state.keywordOnly⟩ :: state.params }

def ParameterState.done (state : ParameterState) : Parameters Surface :=
  ⟨state.params.reverse, state.vararg, state.kwarg⟩

/-- The hint of a parameter, where hints can stand. -/
def parameterHint (hinted : Bool) : Parse (Option Surface) := do
  if ← acceptIf hinted (.mark ":") then
    return some (← rules.hint .free .declared)
  else return none

def parameterDefault : Parse (Option Surface) := do
  if ← acceptMark "=" then
    return some (← rules.free)
  else return none

def path (name : String) : Parse Surface :=
  loop (fun object => do
    if ← acceptMark "." then
      return some (.member object (← nameWord))
    if ← acceptMark "[" then
      return some (← rules.subscriptOf object)
    return none) (.ident name)

/-- The name behind `*` or `**`; a gap or a longer path leaves none. -/
def starName : Parse (Option String) := do
  let gap := (← peek).gap
  let name ← nameWord
  match ← rules.path name with
  | .ident text => return if gap then none else some text
  | _ => return none

def parameter (hinted : Bool) (state : ParameterState) : Parse ParameterState := do
  let token ← peek
  match token.lexeme with
  | .mark "/" =>
    advance
    return state
  | .mark "*" =>
    advance
    match (← peek).lexeme with
    | .word _ =>
      let name ← rules.starName
      let hint ← rules.parameterHint hinted
      let vararg := match name with
        | some text => some ⟨text, hint⟩
        | none => state.vararg
      return { state with vararg, keywordOnly := true }
    | _ => return { state with keywordOnly := true }
  | .mark "**" =>
    advance
    let name ← rules.starName
    let hint ← rules.parameterHint hinted
    let kwarg := match name with
      | some text => some ⟨text, hint⟩
      | none => state.kwarg
    return { state with kwarg }
  | .mark "(" =>
    let _ ← rules.primary .free
    let text ← textFrom token.place
    match ← rules.parameterDefault with
    | some value => return state.push (String.ofList text) (some value) none
    | none => return state
  | _ =>
    let name ← nameWord
    let hint ← rules.parameterHint hinted
    let default ← rules.parameterDefault
    return state.push name default hint

/-- The parameters up to a closing mark, which is left. -/
def parameters (hinted : Bool) (close : String) : Parse (Parameters Surface) := do
  let state ← loop (fun state => do
    if ← isMark close then return none
    let next ← rules.parameter hinted state
    unless ← isMark close do expectMark ","
    return some next) {}
  return state.done

/-! ## Comprehensions -/

/-- The word `for`, perhaps with `async` before it, stands here. -/
def atFor : Parse Bool := do
  if ← isWord "for" then return true
  else sees do expectWord "async"; expectWord "for"

/-- Takes the `for` of a clause. -/
def acceptFor : Parse Bool := do
  if ← acceptWord "for" then return true
  else return (← attempt do expectWord "async"; expectWord "for").isSome

/-- The targets of a `for`, up to the word `in`, which is taken. -/
def forTargets : Parse Surface := do
  let first ← rules.primary .free
  let (items, comma) ← loop (fun (items, _) => do
    if ← acceptMark "," then
      if ← isWord "in" then return some (items, true)
      else return some ((← rules.primary .free) :: items, true)
    else return none) ([first], false)
  expectWord "in"
  return if comma then .tuple (items.reverse.map asTarget) else asTarget first

def clauses : Parse (List (ForClause Surface)) := do
  let found ← loop (fun (found : List (ForClause Surface)) => do
    if ← acceptFor then
      let target ← rules.forTargets
      let first ← rules.iterable
      let iters ← loop (fun items => do
        if ← acceptMark "," then
          if Layout.free.startsOperand (← peek) then
            return some ((← rules.iterable) :: Surface.blank :: items)
          else return some (Surface.blank :: items)
        else return none) [first]
      return some (⟨target, iters.reverse, []⟩ :: found)
    else if ← acceptWord "if" then
      let gap := (← peek).gap
      let condition ← rules.expression .free Power.named
      match found with
      | [] => fail
      | last :: rest =>
        return some ({ last with conditions := last.conditions ++ [.afterGap gap condition] } :: rest)
    else return none) []
  if found.isEmpty then fail
  return found.reverse

/-! ## Strings -/

/-- What a string literal has been read to so far. -/
structure StringState where
  text : List Char := []
  values : List Surface := []
  closed : Bool := false

/--
The rest of an interpolation, behind its brace: an expression, perhaps the mark of a debugging form, a
conversion and a format. `fuel` bounds the interpolations inside the format.
-/
def interpolation (q : Quote) : Nat → Parse Surface
  | 0 => fail
  | fuel + 1 => do
    let value ← do
      if ← acceptWord "yield" then rules.yieldOperand .free else rules.expressions .free
    let _ ← acceptMark "="
    if ← acceptMark "!" then
      let _ ← nameWord
    let token ← peek
    match token.lexeme with
    | .mark "\x7d" => return value
    | .mark ":" | .mark ":=" =>
      resumeFormat (token.place.skip 1)
      formatTail fuel
      return value
    | _ => fail
where
  /-- Puts the next brace of the format in sight. -/
  resumeFormat (place : Place) : Parse Unit :=
    resume (place.skip (place.chars.takeWhile fun c => c ≠ '\x7b' && c ≠ '\x7d').length)
  /-- The interpolations of a format, up to the brace that closes it. -/
  formatTail (fuel : Nat) : Parse Unit := do
    let _ ← loop (fun (_ : Unit) => do
      if ← isMark "\x7b" then
        advance
        let _ ← interpolation q fuel
        resumeFormat (← behind)
        return some ()
      else return none) ()
    unless ← isMark "\x7d" do fail

/-- A string literal whose opening is in sight. -/
def stringLiteral (q : Quote) : Parse Surface := do
  let start ← behind
  let (state, place) ← loop (fun ((state, place) : StringState × Place) => do
    if state.closed then return none
    let stretch := q.stretch 0 place.chars
    let place := place.skip stretch.text.length
    match stretch.stop with
    | .nothing => fail
    | .closing =>
      return some ({ state with text := state.text ++ stretch.text, closed := true },
        place.skip q.width)
    | .brace =>
      resume (place.skip 1)
      let value ← rules.interpolation q (← get).size
      return some ({ state with values := value :: state.values }, ← behind)) ({}, start)
  resume place
  if q.isFormatted then return .formatted state.values.reverse
  if q.isBytes then return .literal .bytes
  let text := if q.isRaw then q.rawText [] false state.text else Text.unescape state.text
  return .literal (.str (String.ofList text))

/-- One string literal or several that stand next to each other. -/
def strings (layout : Layout) : Parse Surface := do
  let parts ← loop (fun parts => do
    let token ← peek
    match token.lexeme with
    | .quote flags mark triple =>
      if !parts.isEmpty && layout.endsBefore token then return none
      return some ((← rules.stringLiteral ⟨flags, mark, triple⟩) :: parts)
    | _ => return none) []
  match parts with
  | [] => fail
  | [one] => return one
  | _ => return .adjacent parts.reverse

/-! ## Brackets -/

/--
A starred expression in parentheses of its own, as an element or an argument, followed by a comma or
the closing mark: whether a gap stands behind the parenthesis, and what is in it. The number of
parentheses is at most `fuel`.
-/
def starGroup (close : String) : Nat → Parse (Option (Bool × Surface))
  | 0 => return none
  | fuel + 1 => attempt do
    expectMark "("
    let gap := (← peek).gap
    let inner ← do
      if ← acceptMark "*" then
        let innerGap := (← peek).gap
        pure (Surface.starred (.afterGap innerGap (← rules.free)))
      else
        match ← starGroup ")" fuel with
        | some (innerGap, inner) => pure (.group (.afterGap innerGap inner))
        | none => fail
    expectMark ")"
    unless (← isMark ",") || (← isMark close) do fail
    return (gap, inner)

/-- One element of a list, a set or a tuple, and whether it is not an expression. -/
def element (close : String) : Parse (Surface × Bool) := do
  if ← acceptWord "yield" then
    return (← rules.yieldOperand .free, false)
  if ← acceptMark "*" then
    let gap := (← peek).gap
    return (.starred (.afterGap gap (← rules.free)), true)
  if ← isMark "(" then
    if let some (_, inner) ← rules.starGroup close (← get).size then
      return (.approximate [inner], true)
  return (← rules.free, false)

/-- The elements behind the first, up to the closing mark. -/
def moreElements (close : String) (first : Surface) : Parse (List Surface) := do
  if ← acceptMark "," then
    return first :: (← commaList close (return (← rules.element close).1))
  else
    expectMark close
    return [first]

/-- What stands in parentheses, behind the opening one. -/
def parenthesis : Parse Surface := do
  let gap := (← peek).gap
  if ← acceptMark ")" then return .tuple []
  let (first, starred) ← rules.element ")"
  if ← atFor then
    let clauses ← rules.clauses
    expectMark ")"
    return .generatorExp first clauses
  if ← acceptIf (!starred) (.mark ")") then return .group (.afterGap gap first)
  return .tuple (← rules.moreElements ")" first)

/-- What stands in square brackets, behind the opening one. -/
def bracket : Parse Surface := do
  if ← acceptMark "]" then return .list []
  let (first, _) ← rules.element "]"
  if ← atFor then
    let clauses ← rules.clauses
    expectMark "]"
    return .listComp first clauses
  return .list (← rules.moreElements "]" first)

/-- One entry of a dictionary: a pair, or the operand of `**`. -/
def entry : Parse (Sum (Surface × Surface) Surface) := do
  if ← acceptMark "**" then return .inr (← rules.free)
  let key ← rules.free
  expectMark ":"
  return .inl (key, ← rules.free)

def dictOf (entries : List (Sum (Surface × Surface) Surface)) : Surface :=
  .dict (entries.filterMap Sum.getLeft?) (entries.filterMap Sum.getRight?)

/-- What stands in braces, behind the opening one. -/
def brace : Parse Surface := do
  let close := "\x7d"
  if ← acceptMark close then return .dict [] []
  if ← isMark "**" then return dictOf (← commaList close rules.entry)
  let (first, starred) ← rules.element close
  if ← acceptIf (!starred) (.mark ":") then
    let value ← rules.free
    if ← atFor then
      let clauses ← rules.clauses
      expectMark close
      return .dictComp first value clauses
    let pair : Sum (Surface × Surface) Surface := .inl (first, value)
    if ← acceptMark "," then return dictOf (pair :: (← commaList close rules.entry))
    expectMark close
    return dictOf [pair]
  if ← atFor then
    let clauses ← rules.clauses
    expectMark close
    return .setComp first clauses
  return .set (← rules.moreElements close first)

/-! ## Calls and subscripts -/

inductive Argument where
  | plain (value : Surface)
  | keyword (name : String) (value : Surface)
  | splat (gap : Bool) (value : Surface)
  | doubleSplat (gap : Bool) (value : Surface)

/-- The arguments of a call: the first splat of each sort has a place of its own. -/
structure Arguments where
  args : List Surface := []
  keywords : List (Keyword Surface) := []
  starArgs : Option Surface := none
  kwArgs : Option Surface := none

def Arguments.push (a : Arguments) : Argument → Arguments
  | .plain value => { a with args := a.args ++ [value] }
  | .keyword name value => { a with keywords := a.keywords ++ [⟨name, value⟩] }
  | .splat gap value =>
    if a.starArgs.isNone then { a with starArgs := some value }
    else { a with args := a.args ++ [.starred (.afterGap gap value)] }
  | .doubleSplat gap value =>
    if a.kwArgs.isNone then { a with kwArgs := some value }
    else { a with args := a.args ++ [.starred (.afterGap gap value)] }

def argument : Parse Argument := do
  if ← acceptMark "*" then
    let gap := (← peek).gap
    return .splat gap (← rules.free)
  if ← acceptMark "**" then
    let gap := (← peek).gap
    return .doubleSplat gap (← rules.free)
  if ← isMark "(" then
    if let some (gap, inner) ← rules.starGroup ")" (← get).size then
      return .plain (.group (.afterGap gap inner))
  let keyword ← attempt do
    let name ← nameWord
    expectMark "="
    return name
  match keyword with
  | some name => return .keyword name (← rules.free)
  | none => return .plain (← rules.free)

def arguments : Parse Arguments := do
  return (← commaList ")" rules.argument).foldl Arguments.push {}

def callOf (function : Surface) : Parse Surface := do
  if ← acceptMark ")" then return .call function [] [] none none
  let first ← rules.argument
  match first with
  | .plain value =>
    if ← atFor then
      let clauses ← rules.clauses
      expectMark ")"
      return .call function [.generatorExp value clauses] [] none none
  | _ => pure ()
  unless ← isMark ")" do expectMark ","
  let a := (← commaList ")" rules.argument).foldl Arguments.push (Arguments.push {} first)
  return .call function a.args a.keywords a.starArgs a.kwArgs

end Surmise.Rules
