import DwarfScope.Variable

/-!
# Navigation

The program is explored like a tree of directories: from all compile units into one of them, from
there into a variable or a type, and on into its members.
-/

namespace DwarfScope

inductive Subject where
  | variable (v : Variable)
  | type (l : Layout)
  deriving Repr, Inhabited

namespace Subject

def name : Subject → String
  | .variable v => v.name
  | .type l => l.name

def layout : Subject → Layout
  | .variable v => v.layout
  | .type l => l

def member (field : String) : Subject → Except Error Subject
  | .variable v => .variable <$> v.member field
  | .type l => .type <$> l.member field

end Subject

inductive Level where
  | allUnits
  | entry (e : Entry)
  | subject (s : Subject)
  deriving Repr, Inhabited

def Level.name : Level → String
  | allUnits => "/"
  | entry e => e.label
  | subject s => s.name

structure Navigation where
  stream : Stream
  cursor : Cursor := {}
  /-- The levels above that of all units, the current one first. -/
  levels : List Level := []
  /-- The client given to variables that are stepped into. -/
  client : Option Nat := none
  deriving Inhabited

abbrev Navigate := EStateM Failure Navigation

namespace Navigation

def current (n : Navigation) : Level := n.levels.headD .allUnits

def depth (n : Navigation) : Nat := n.levels.length

def path (n : Navigation) : List String := Level.allUnits.name :: n.levels.reverse.map Level.name

def currentUnit? (n : Navigation) : Option Entry :=
  n.levels.reverse.findSome? fun
    | .entry e => if e.tag = .compileUnit then some e else none
    | _ => none

def currentVariable (n : Navigation) : Except Error Variable :=
  match n.current with
  | .subject (.variable v) => .ok v
  | level => .error (.notASubject level.name)

def setCurrentVariable (n : Navigation) (v : Variable) : Navigation :=
  match n.levels with
  | .subject (.variable _) :: rest => { n with levels := .subject (.variable v) :: rest }
  | _ => n

/-! ## Moving -/

def walk (step : Stream → Walk α) : Navigate α := fun n =>
  match step n.stream n.cursor with
  | .ok a cursor => .ok a { n with cursor }
  | .error fault cursor => .error fault { n with cursor }

def push (level : Level) : Navigate Unit := modify fun n => { n with levels := level :: n.levels }

def entryChild (parent : Entry) (name : String) : Navigate Subject := do
  let children ← walk (·.children parent Entry.isExplorable)
  match children.find? (·.name? = some name) with
  | none => throw (.notFound name)
  | some e =>
    if e.tag.isVariable then
      let v ← walk (Variable.ofEntry · e)
      return .variable { v with client := (← get).client }
    else return .type (← walk (·.resolve e))

/-- The compile unit of a name. The cursor is left behind its entry. -/
def unitNamed (name : String) : Navigate Entry := do
  let units ← walk Stream.compileUnits
  match units.find? (·.name? = some name) with
  | none => throw (.notFound name)
  | some unit =>
    walk (·.seek unit.offset)
    let _ ← walk Stream.next
    return unit

def stepInto (name : String) : Navigate Unit := do
  match (← get).current with
  | .allUnits => push (.entry (← unitNamed name))
  | .entry parent => push (.subject (← entryChild parent name))
  | .subject s => push (.subject (← ofExcept (s.member name)))

/-- Moves one level up. Back at an entry, the cursor is put behind it. -/
def back : Navigate Unit := do
  match (← get).levels with
  | [] => return
  | _ :: rest =>
    modify fun n => { n with levels := rest }
    match (← get).current with
    | .entry e =>
      walk (·.seek e.offset)
      let _ ← walk Stream.next
    | _ => return

def reset : Navigate Unit := do
  modify fun n => { n with levels := [] }
  walk fun _ => Stream.rewind

/-- Moves from a variable to its type, and stays on a type. -/
def stepToType : Navigate Layout := do
  match (← get).current with
  | .subject (.variable v) =>
    push (.subject (.type v.layout))
    return v.layout
  | .subject (.type l) => return l
  | level => throw (.notASubject level.name)

def listChildren : Navigate (List String) := do
  match (← get).current with
  | .allUnits => return (← walk Stream.compileUnits).map Entry.label
  | .entry e => return (← walk (·.children e Entry.isExplorable)).map Entry.label
  | .subject s => return s.layout.memberNames

end Navigation
end DwarfScope
