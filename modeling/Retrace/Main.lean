import Retrace.CommandLine.Job

/-!
# The program

Reads files and standard input, prints, and leaves every decision to the library.
-/

namespace Retrace.Program

def look (path : String) : IO Grid.Found := do
  try
    let bytes ← IO.FS.readBinFile path
    return .content bytes.data.toList
  catch e =>
    match e with
    | .noFileOrDirectory .. => return .missing
    | .inappropriateType _ 21 _ => return .unreadable .isDirectory
    | .inappropriateType .. => return .unreadable .notDirectory
    | e => return .unreadable (.other e.toString)

/-- Reads a line of standard input with its line feed; `read` are its first bytes, the newest
first. -/
partial def typed (input : IO.FS.Stream) (read : List UInt8) : IO (List UInt8) := do
  let bytes ← input.read 1
  match bytes.data.toList with
  | [] => return read.reverse
  | b :: _ => if Input.isLineFeed b then return (b :: read).reverse else typed input (b :: read)

def print (bytes : ByteArray) : IO Unit := do
  let output ← IO.getStdout
  output.write bytes
  output.flush

def notify (events : List Event) : IO Unit :=
  for event in events do
    if event.visibleAt .warn then IO.eprintln event.render

def close (report : Report) : IO UInt32 := do
  print report.output
  notify report.events
  return report.status.toUInt32

/-- Carries out a job, of whose next portion `shown` bytes have been printed already. -/
partial def play (job : Job) (shown : Nat) : IO UInt32 := do
  match job.move shown with
  | .goOn output events next =>
    print output
    notify events
    play next 0
  | .wait output shown report =>
    print output
    let line ← typed (← IO.getStdin) []
    if line.isEmpty then close report else play (job.feed line) shown
  | .finish report => close report

/-- A seed that nobody chose. -/
def entropy : IO UInt64 := do
  let bytes ← IO.getRandomBytes 8
  return bytes.data.foldl (fun seed b => (seed <<< 8) ||| b.toUInt64) 0

end Retrace.Program

open Retrace in
/-- Launches the program that the command line asks for. -/
def main (words : List String) : IO UInt32 := do
  match Options.parse words with
  | none =>
    IO.eprintln "usage: FILE [--debug] [--history N] [--seed N] [--step-limit N]"
    Program.close { status := Launch.usageStatus }
  | some options =>
    match Grid.load options.file (← Program.look options.file) with
    | .error fault => Program.close (Launch.reportUnloaded fault)
    | .ok grid => Program.play (.ofOptions options grid (← Program.entropy)) 0
