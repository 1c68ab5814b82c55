import Retrace.Point
import Retrace.Stack
import Retrace.Operand
import Retrace.Edge
import Retrace.Fault
import Retrace.Event
import Retrace.Reply
import Retrace.Guard
import Retrace.Dice
import Retrace.Text.Lines
import Retrace.Text.Blank
import Retrace.Text.Digit
import Retrace.Text.Utf8
import Retrace.Grid.Basic
import Retrace.Grid.Parse
import Retrace.Grid.Access
import Retrace.Grid.Render
import Retrace.Grid.Lemmas
import Retrace.Instruction
import Retrace.Change
import Retrace.Journal
import Retrace.Channel
import Retrace.Channel.Input
import Retrace.Channel.Sink
import Retrace.Channel.Console
import Retrace.Channel.Terminal
import Retrace.Channel.Transcript
import Retrace.State
import Retrace.Machine
import Retrace.Routine
import Retrace.Run
import Retrace.Session
import Retrace.CommandLine.Options
import Retrace.CommandLine.Launch
import Retrace.CommandLine.Job
import Retrace.Main
import Retrace.Proofs.Plane
import Retrace.Proofs.Calls
import Retrace.Proofs.Routines
import Retrace.Proofs.AllOrNothing
import Retrace.Proofs.Memory
import Retrace.Proofs.Remaining
import Retrace.Proofs.Transcripts
import Retrace.Proofs.Snapshots
import Retrace.Proofs.Verdicts
import Retrace.Proofs.Replay
import Retrace.Proofs.Attempts
import Retrace.Proofs.Frame
import Retrace.Proofs.Underflow
import Retrace.Proofs.LineBuffering
import Retrace.Proofs.Configurations
import Retrace.Proofs.Trails
import Retrace.Proofs.Resting
import Retrace.Proofs.Margins
import Retrace.Proofs.SharedSource
import Retrace.Proofs.Inputless
import Retrace.Proofs.Sessions
import Retrace.Proofs.Forgetting
import Retrace.Proofs.Wholeness
import Retrace.Proofs.Writes
import Retrace.Proofs.Leaving
import Retrace.Proofs.Failures
import Retrace.Proofs.Retractions
import Retrace.Proofs.Splitting
import Retrace.Proofs.Evictions
import Retrace.Proofs.Accounts
import Retrace.Proofs.Quotations
import Retrace.Proofs.LineEndings
import Retrace.Proofs.Rendering
import Retrace.Proofs.ExitCodes
import Retrace.Proofs.Takings
import Retrace.Proofs.Truncations
import Retrace.Proofs.Throws
import Retrace.Proofs.Timeliness
import Retrace.Proofs.Foresight
import Retrace.Proofs.Portions
import Retrace.Proofs.Playing
