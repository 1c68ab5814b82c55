import Retrace.CommandLine.Options
import Retrace.Grid.Parse
import Retrace.Channel.Terminal
import Retrace.Session

/-!
# From the command line to the exit status

A program is launched as a plain run at a terminal, or as a watched session. Both use the standard
policy at the edges and fail at a division by zero. The plain run keeps no history.

What a launch leaves behind is a `Report`: what was printed, the events, and the exit status. The
status is the program's exit code reduced to a byte, and 1 or 2 where it did not come to an end.
-/

namespace Retrace

structure Report where
  output : ByteArray := ByteArray.empty
  events : List Event := []
  status : UInt8

namespace Launch

def failureStatus : UInt8 := 1

/-- The status of a launch with wrong words on the command line, or without a program. -/
def usageStatus : UInt8 := 2

def statusOf (code : Int32) : UInt8 := code.toUInt32.toUInt8

def console (input : List UInt8) : Console := { input := .ofBytes input }

def plain {ρ : Type} (grid : Grid) (dice : ρ) (input : List UInt8) :
    Machine Terminal EdgePolicy ρ :=
  .start grid ⟨console input⟩ .standard dice .off

def watched {ρ : Type} (options : Options) (grid : Grid) (dice : ρ) (input : List UInt8) :
    Session ρ :=
  { machine := .start grid ⟨console input, ""⟩ .standard dice (.kept (.bounded options.history))
    limit := options.stepLimit }

/-- Closes a launch whose program ran: a line feed follows what was printed if it ended, and an
event tells of the fault if it failed. -/
def report (output : ByteArray) (events : List Event) : Except Fault Int32 → Report
  | .ok code => ⟨output ++ "\n".toUTF8, events, statusOf code⟩
  | .error fault => ⟨output, events ++ [.failed fault], failureStatus⟩

/-- The report of a launch without a program that could be run. -/
def reportUnloaded : Fault → Report
  | .fileNotFound path =>
    let text := (Fault.fileNotFound path).message.capitalize ++ "\n"
    ⟨text.toUTF8, [], usageStatus⟩
  | fault => ⟨.empty, [.failed fault], failureStatus⟩

/-- Launches a plain run; `none` if it takes more than `fuel` steps. -/
def runPlain {ρ : Type} [DirectionSource ρ] (fuel : Nat) (options : Options) (grid : Grid)
    (dice : ρ) (input : List UInt8) : Option Report :=
  ((plain grid dice input).run fuel options.stepLimit).map fun r =>
    report r.state.surroundings.channel.console.sink.written r.events
      (r.result.map Summary.exitCode)

def runWatched {ρ : Type} [DirectionSource ρ] (options : Options) (grid : Grid) (dice : ρ)
    (input : List UInt8) : Report :=
  let r := (watched options grid dice input).run
  report r.state.machine.surroundings.channel.console.sink.written r.events r.result

/-- The generator for the seed that was given, or else for `entropy`. -/
def dice (options : Options) (entropy : UInt64) : Xoshiro :=
  .ofSeed ((options.seed.map UInt64.ofNat).getD entropy)

/-- Launches the program that the words of a command line ask for. `look` finds files; `none` if a
plain run takes more than `fuel` steps. -/
def run (fuel : Nat) (entropy : UInt64) (look : String → Grid.Found) (words : List String)
    (input : List UInt8) : Option Report :=
  match Options.parse words with
  | none => some { status := usageStatus }
  | some options =>
    match Grid.load options.file (look options.file) with
    | .error fault => some (reportUnloaded fault)
    | .ok grid =>
      if options.debug then some (runWatched options grid (dice options entropy) input)
      else runPlain fuel options grid (dice options entropy) input

end Launch

end Retrace
