import Fickle.Program.Typed

/-! # Worlds

A program acts on a host. A world has the variables of the program as well, and a clock that has
moved on whenever it is looked at.
-/

namespace Fickle

/-- What a client acts on. -/
structure World where
  host : Host
  /-- The drifting variables declared so far. -/
  vars : List DriftVar
  /-- What the clock is going to read, one time after the other, in any order. -/
  readings : Nat → Duration

namespace World

def ofHost (host : Host) (readings : Nat → Duration) : World := ⟨host, [], readings⟩

def session (w : World) : Session := w.host.session

/-- The clock moves on to its next reading. -/
def tick (w : World) : World :=
  { w with host.clock := ⟨w.readings 0⟩, readings := fun n => w.readings (n + 1) }

end World

/-- Something done to a world, which may fail. -/
abbrev Act := ExceptT Fault (StateM World)

namespace Act

variable {β : Type}

def play (p : Act β) (w : World) : Except Fault β × World := Id.run (StateT.run (ExceptT.run p) w)

def ofProgram (p : Program β) : Act β :=
  ExceptT.mk fun w =>
    let (r, host) := p.play w.host
    (r, { w with host })

instance : MonadLift Program Act := ⟨ofProgram⟩

/-! ## Drifting variables -/

/-- Declares a variable, which is known by its index from then on. -/
def driftVar (site : Site) (nominal : Binary64) : Act Nat :=
  ExceptT.mk fun w =>
    let w := w.tick
    let (r, host) := (Program.driftVar site nominal).play w.host
    (r.map fun _ => w.vars.length, { w with host, vars := w.vars ++ r.toOption.toList })

/-- Reads the variable with index `i`, if there is one. -/
def timeDrift (i : Nat) : Act (Option Binary64) :=
  ExceptT.mk fun w =>
    match w.vars[i]? with
    | none => (.ok none, w)
    | some v =>
      let w := w.tick
      let ((r, v), host) := (Program.timeDrift v).run w.host
      (r.map some, { w with host, vars := w.vars.set i v })

/-- Assigns to the variable with index `i`, if there is one, at a time worked out from the clock. -/
def assign (i : Nat) (nominal : Binary64) (time : Duration → Duration) : Act Unit :=
  ExceptT.mk fun w =>
    match w.vars[i]? with
    | none => (.ok (), w)
    | some v =>
      let w := w.tick
      (.ok (), { w with vars := w.vars.set i (v.assign nominal (time w.host.clock.now)) })

end Act

end Fickle
