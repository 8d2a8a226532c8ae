import BlockCalculus.Workbench.Edit

/-! Edits carried out in place. Each is a program that looks at the top of the
stack, takes entries off and puts entries on; what it has changed stays changed
if it then fails. -/

namespace BlockCalculus.Workbench

variable {σ : Type}

/-- A program that works on a workbench beside the memory of its host. -/
abbrev Program (σ : Type) := ExceptT EncodeError (StateM (Workbench × σ))

namespace Program

def putOn (b : Block) : Program σ Unit :=
  modify fun (w, memory) => ({ w with stack := b :: w.stack }, memory)

def takeOff : Program σ (Option Block) :=
  modifyGet fun (w, memory) =>
    match w.stack.pop? with
    | some (top, rest) => (some top, { w with stack := rest }, memory)
    | none => (none, w, memory)

def top : Program σ (Option Block) := do
  return (← get).1.stack.peek? 0

def height : Program σ Nat := do
  return (← get).1.stack.length

def remember (target : Address) (b : Block) : Program σ Unit :=
  modify fun (w, memory) => ({ w with links := (target, b) :: w.links }, memory)

def remembered (target : Address) : Program σ (Option Block) := do
  return (← get).1.links.lookup target

def record (host : Host σ) (e : Event) : Program σ Unit :=
  modify fun (w, memory) => (w, host.record e memory)

/-- Puts something in the place of the top. -/
def replaceTop (b : Block) : Program σ Unit := do
  let _ ← takeOff
  putOn b

end Program

open Program

/-- Carries out an edit. -/
def perform (host : Host σ) : Edit → Program σ Unit
  | .push b => putOn b
  | .box => do
    match ← takeOff with
    | some top => putOn (.quote top)
    | none => return
  | .unbox => do
    match ← top with
    | some (.quote body) => replaceTop body
    | _ => return
  | .join => do
    if (← height) < 2 then return
    let upper ← takeOff
    let lower ← takeOff
    match upper, lower with
    | some upper, some lower => putOn (Block.compose [lower, upper])
    | _, _ => return
  | .split => do
    match ← top with
    | some (.pair first second) => do
      replaceTop first
      putOn second
    | _ => return
  | .mint => do
    match ← top with
    | none => return
    | some b =>
      match Bytecode.addressOf b with
      | .error e => throw e
      | .ok target => do
        match ← takeOff with
        | some b => do
          record host (.minted target)
          remember target b
        | none => pure ()
        putOn (.link target)
  | .follow => do
    match ← top with
    | some (.link target) =>
      match ← remembered target with
      | some b => replaceTop b
      | none => return
    | _ => return
  | .copy => do
    match ← top with
    | some b => putOn b
    | none => return
  | .drop => do
    let _ ← takeOff
  | .swap =>
    modify fun (w, memory) => ({ w with stack := w.stack.exchange?.getD w.stack }, memory)
  | .reduce quota => do
    match ← takeOff with
    | some b => do
      let o ← modifyGet fun (w, memory) =>
        let (o, memory) := Reduction.reduce host.nameless.coarse quota b memory
        (o, w, memory)
      putOn o.block
    | none => return

/-- Carries out edits one after another, whatever becomes of them. -/
def performAll (host : Host σ) : List Edit → Workbench × σ → Workbench × σ
  | [], s => s
  | e :: rest, s => performAll host rest (perform host e s).2

end BlockCalculus.Workbench
