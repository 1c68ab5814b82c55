import Retrace.CommandLine.Launch

/-!
# Launches in portions

Someone who types while a program runs wants to see what it has printed, and has not typed yet what
it will read. A `Job` is a launch that is carried out in portions, so that output can be shown in
between: some steps of a plain run, a turn of a watched one.

A portion that was `starved` came to the end of what has been typed. It is repeated from the same
job with one more line, and then begins by printing the same. So someone who has seen a part of it
is shown the rest only: this and everything else that is to be done after a portion is its `Move`.

Nothing depends on where a run is cut and on when its input was typed (`Launch.played_iff_run`).
-/

namespace Retrace

/-- A launch that is going on. -/
inductive Job where
  /-- A plain run with the number of steps that are left. -/
  | plain (limit : Option Nat) (machine : Machine Terminal EdgePolicy Xoshiro)
  /-- A watched run. -/
  | watched (session : Session Xoshiro)

namespace Job

def portion : Nat := 1000

def ofOptions (options : Options) (grid : Grid) (entropy : UInt64) : Job :=
  let dice := Launch.dice options entropy
  if options.debug then watched (Launch.watched options grid dice [])
  else plain options.stepLimit (Launch.plain grid dice [])

def console : Job → Console
  | plain _ m => m.surroundings.channel.console
  | watched s => s.machine.surroundings.channel.console

def withConsole (console : Console) : Job → Job
  | plain limit ⟨state, ⟨_, guard, dice⟩, division, history⟩ =>
    plain limit ⟨state, ⟨⟨console⟩, guard, dice⟩, division, history⟩
  | watched ⟨⟨state, ⟨channel, guard, dice⟩, division, history⟩, steps, limit⟩ =>
    watched ⟨⟨state, ⟨{ channel with console }, guard, dice⟩, division, history⟩, steps, limit⟩

/-- Carries out a portion; the result is the exit code if it was the last one. -/
def advance : Job → Reply Job (Option Int32)
  | plain limit m =>
    match m.runFor (min portion (limit.getD portion)) with
    | ⟨.error fault, m, events⟩ => ⟨.error fault, plain limit m, events⟩
    | ⟨.ok summary, m, events⟩ =>
      let left := limit.map (· - summary.steps)
      let ended := summary.outcome ≠ .executed ∨ left = some 0
      ⟨.ok (if ended then some summary.exitCode else none), plain left m, events⟩
  | watched s =>
    if s.active then
      match s.turn with
      | ⟨.error fault, s, events⟩ => ⟨.error fault, watched s, events⟩
      | ⟨.ok goesOn, s, events⟩ =>
        let code := s.machine.state.stack.exitCode
        ⟨.ok (if goesOn then none else some code), watched s, events⟩
    else .done (some s.machine.state.stack.exitCode) (watched s)

/-- Whether a portion of a job, with this result, came to the end of what has been typed. -/
def starved (job : Job) : Except Fault (Option Int32) → Bool
  | .error .inputExhausted => true
  | .error _ => false
  | .ok _ =>
    match job with
    | plain .. => false
    | watched s => s.active && job.console.input.unread.isEmpty

def feed (line : List UInt8) (job : Job) : Job := job.withConsole (job.console.feed line)

/-- The end of a job, if its portion with this result was the last one. -/
def ending? : Except Fault (Option Int32) → Option (Except Fault Int32)
  | .ok none => none
  | .ok (some code) => some (.ok code)
  | .error fault => some (.error fault)

end Job

/-- What is to be done after a portion of a job. -/
inductive Move where
  /-- The output is shown, and the next portion can be carried out. -/
  | goOn (output : ByteArray) (events : List Event) (next : Job)
  /-- The output is shown, and a line is waited for. With it the portion is repeated, of which
  `shown` bytes are shown by then. Without it the job is closed. -/
  | wait (output : ByteArray) (shown : Nat) (close : Report)
  /-- The job is closed. -/
  | finish (close : Report)

/-- Carries out a portion of a job of which `shown` bytes have been shown already. -/
def Job.move (job : Job) (shown : Nat) : Move :=
  match job.advance with
  | ⟨result, next, events⟩ =>
    match next.console.drain with
    | (written, console) =>
      let fresh := written.extract shown written.size
      match ending? result with
      | none => .goOn fresh events (next.withConsole console)
      | some ending =>
        if job.starved result then .wait fresh written.size (Launch.report .empty events ending)
        else .finish (Launch.report fresh events ending)

end Retrace
