import Wordcode.Machine.Binding
import Wordcode.Machine.BuiltinCall
import Wordcode.Machine.Frame

namespace Wordcode

/-! # The machine

A machine runs a main code object, and calls values between runs. Every call of a function gets a
frame of its own; other callables run without one. Errors are recorded by the innermost frame in
which they surface.

Calls nest, and frames run as long as they like, so running takes a fuel: a number of steps after
which it gives up. `Machine.invoke` is the only recursion through calls, and `Machine.runFrom` the
only one through the instructions of a frame.
-/

/-- A callable of the embedding program. It may call back, and it may return nothing. -/
abbrev HostFunction := Invoke → List Value → List Entry → Exec (Option Value)

/-- A machine. -/
structure Machine where
  main? : Option Code := none
  /-- The host callables by name. -/
  hosts : String → HostFunction := fun _ _ _ _ => return none
  /-- The number of frames that may be active at once. -/
  maxDepth : Nat := 1000
  observer? : Option Observer := none
  verbosity : Verbosity := .silent

namespace Machine

/-- The depth limit that a number stands for: a number below one selects the usual limit. -/
def depthLimit (n : Int) : Nat := if n ≤ 0 then 1000 else n.toNat

/-- Enough fuel for any run that ends in practice. -/
def ampleFuel : Nat := 1000000000000000000

/-! ## Records -/

/-- Logs a message, if the machine is verbose enough. -/
def log (m : Machine) (message : LogMessage) : Exec Unit :=
  let wanted : Bool := match m.verbosity with
    | .silent => false
    | .debug => message.needs = Verbosity.debug
    | .trace => true
  if wanted then modify fun w : World => { w with log := w.log.push ⟨w.logName?, message⟩ }
  else return ()

/-- Reports an event to an observer, which may stop the run. -/
def report (o : Observer) (event : Event) : Exec Unit := do
  let counts := (← get).counts.add event
  modify fun w => { w with counts, events := w.events.push event }
  if !o.accepts event counts then Exec.raise .halted "execution halted by observer"

/-- Reports an instruction that is about to be executed, if the observer wants it. -/
def reportStep (m : Machine) (f : Frame) (i : Instruction) : Exec Unit := do
  match m.observer? with
  | none => return ()
  | some o =>
    let event : Exec Unit := do
      let depth := (← get).sites.length
      report o (.step f.name i.offset i.op i.arg f.stack.length depth)
    match o.config.normalize with
    | { mode := .none, .. } => return ()
    | { mode := .all, .. } => event
    | { mode := .sampled, interval, .. } =>
      let count := (← get).stepCount + 1
      modify fun w => { w with stepCount := count }
      if (count : Int) % interval = 0 then event

/-! ## Frames -/

/-- Prepares a code object for running: it is validated and decoded, and its constants become
values. -/
def prepare (c : Code) : Exec Loaded := do
  match c.validate with
  | .error e => throw (if e.isError then .wrap .malformedCode e else e)
  | .ok () =>
    let listing ← Exec.ofExcept c.decode
    let constants ← c.constants.zipIdx.mapM fun (k, i) =>
      (Op.labelled s!"{c.name}: constant {i}" (Op.ofConst k) : Op Value)
    return { code := c, listing, constants := constants.toArray }

/-- The prepared form of a code object. Each one is prepared once. -/
def load (c : Code) : Exec Loaded := do
  match (← get).loaded.lookup c.serial with
  | some code => return code
  | none =>
    let code ← prepare c
    modify fun w => { w with loaded := (c.serial, code) :: w.loaded }
    return code

/-- Notes the instruction that a frame is about to execute. -/
def atSite (site : Fault.Site) : Exec Unit :=
  modify fun w => { w with sites := site :: w.sites.tail }

/-- Executes an instruction of a frame. -/
def turn (m : Machine) (s : Surroundings) (f : Frame) (i : Instruction) : Exec (Flow × Frame) := do
  atSite ⟨f.name, f.code.code.file, i.offset, i.op.name⟩
  m.reportStep f i
  (Frame.execute s i).run f

/-- The fault of a frame that finds no instruction at an offset. -/
def strayed (f : Frame) (offset : Nat) : Failure :=
  if f.code.listing.endOffset ≤ offset then
    malformed f.code.code.name "reached the end of the instruction stream without returning"
  else malformed f.code.code.name s!"no instruction starts at offset {offset}"

/-- Runs a frame from an offset until it returns. The result is the value, and the number of values
left on the stack. -/
def runFrom (m : Machine) (s : Surroundings) : Nat → Nat → Frame → Exec (Value × Nat)
  | 0, _, _ => throw .exhausted
  | steps + 1, offset, f => do
    match f.code.listing.lookup? offset with
    | none => throw (strayed f offset)
    | some i =>
      let (flow, f) ← m.turn s f i
      match flow with
      | .next => m.runFrom s steps i.next f
      | .jump target => m.runFrom s steps target f
      | .leave v => return (v, f.stack.length)

/-- Runs a frame on top of the active ones. An error is recorded with the trace up to here, unless
an inner frame has done so. -/
def runFrame (m : Machine) (s : Surroundings) (f : Frame) : Exec Value := do
  let callers := (← get).sites
  let depth := callers.length + 1
  modify fun w => { w with sites := ⟨f.name, f.code.code.file, 0, "<0>"⟩ :: callers }
  let (v, left) ← tryCatch (m.runFrom s s.fuel 0 f) fun e => do
    let sites := (← get).sites
    modify fun w => { w with sites := callers }
    throw (e.record depth sites)
  if 0 < left then m.log (.leftover f.name depth left)
  modify fun w => { w with sites := callers }
  return v

/-! ## Calls -/

/-- Checks that the frame of a call may be opened, and computes its depth. -/
def checkDepth (m : Machine) (c : Call) : Exec Nat := do
  let name := c.function.code.name
  if !(← get).running then
    Exec.typeError s!"function {name} called outside of a running vm"
  let depth := (← get).sites.length + 1
  if m.maxDepth < depth then
    Exec.raise .recursion s!"maximum frame depth of {m.maxDepth} exceeded calling {name}()"
  return depth

/-- Announces a call. -/
def announce (m : Machine) (c : Call) (depth : Nat) : Exec Unit := do
  let name := c.function.code.name
  match m.observer? with
  | some o =>
    if o.config.calls then report o (.call name c.arguments.length c.keywords.length depth)
  | none => pure ()
  m.log (.called name depth)

/-- Opens the frame of a call: its depth is checked, the code is prepared, the arguments are bound,
and the call is announced. -/
def openFrame (m : Machine) (c : Call) : Exec Frame := do
  let depth ← m.checkDepth c
  let code ← load c.function.code
  let scope ← (c.makeScope : Op Nat)
  m.announce c depth
  return { code, locals := .own scope }

/-- Announces that a call has returned. -/
def closeFrame (m : Machine) (c : Call) (v : Value) : Exec Unit := do
  let name := c.function.code.name
  let depth := (← get).sites.length + 1
  m.log (.returned name depth)
  match m.observer? with
  | some o => if o.config.returns then report o (.leave name (← Op.repr v) depth)
  | none => pure ()

/-- Calls a function in a new frame. -/
def callFunction (m : Machine) (s : Surroundings) (c : Call) : Exec Value := do
  let f ← m.openFrame c
  let v ← m.runFrame s f
  m.closeFrame c v
  return v

/-- Checks that a host callable takes the keyword arguments of a call. -/
def checkConvention (h : Host) (keywords : List Entry) : Exec Unit := do
  if !keywords.isEmpty then
    match h.convention with
    | .keywords => return ()
    | .positional => Exec.typeError s!"{h.name}() takes no keyword arguments"
    | .bare =>
      let text ← Op.repr (.host h)
      Exec.typeError s!"{text} takes no keyword arguments"

/-- Calls a value, given a way to make the calls that this leads to. -/
def answer (m : Machine) (s : Surroundings) : Invoke := fun f args keywords => do
  match f with
  | .function ref => do
    let c ← (Op.closure ref : Op Closure)
    some <$> m.callFunction s ⟨c, args, keywords⟩
  | .method receiver method _ =>
    some <$> Exec.callMethod s.callback s.fuel receiver method args keywords
  | .builtin b => some <$> Exec.callBuiltin s.callback s.fuel b args keywords
  | .host h =>
    checkConvention h keywords
    m.hosts h.name s.invoke args keywords
  | _ => Exec.typeError s!"'{f.typeName}' object is not callable"

/-- Calls a value. -/
def invoke (m : Machine) : Nat → Invoke
  | 0, _, _, _ => throw .exhausted
  | fuel + 1, f, args, keywords => m.answer ⟨m.invoke fuel, fuel⟩ f args keywords

/-- What instructions and value operations need from a machine. -/
def surroundings (m : Machine) (fuel : Nat) : Surroundings := ⟨m.invoke fuel, fuel⟩

/-! ## Runs -/

/-- Marks the machine as running; it cannot run twice at the same time. -/
def enter : Exec Unit := do
  if (← get).running then throw (.plain "vm is already running")
  modify fun w => { w with running := true, stepCount := 0 }

/-- Marks the machine as stopped. -/
def leave : Exec Unit := modify fun w => { w with running := false, sites := [] }

/-- Does something while the machine counts as running. -/
def whileRunning {α : Type} (x : Exec α) : Exec α := do
  enter
  let a ← tryCatch x fun e => do
    leave
    throw e
  leave
  return a

/-- The code object that the machine runs. -/
def program (m : Machine) : Exec Code :=
  match m.main? with
  | some c => return c
  | none => throw (.plain "no main code available")

/-- Prepares the main code object. -/
def loadMain (main : Code) : Exec Loaded := do
  modify fun w => { w with logName? := some main.name }
  load main

/-- Runs the main code object once it is prepared. -/
def runMain (m : Machine) (fuel : Nat) (code : Loaded) : Exec Value := do
  m.log (.runStarted (← get).globals.length)
  let v ← tryCatch (m.runFrame (m.surroundings fuel) { code, locals := .globals }) fun e => do
    if e.isError then m.log (.runFailed e.text)
    throw e
  m.log (.runFinished v.typeName)
  return v

/-- Runs the main code object. -/
def run (m : Machine) (fuel : Nat) : Exec Value := do
  let main ← m.program
  whileRunning do
    m.runMain fuel (← loadMain main)

/-- Calls a value, typically a function that an earlier run has made. -/
def call (m : Machine) (fuel : Nat) (f : Value) (args : List Value) (keywords : List Entry) :
    Exec Value :=
  whileRunning ((m.surroundings fuel).call f args keywords)

end Machine

end Wordcode
