import StackLift.Code.Address
import StackLift.Code.Opcode
import StackLift.Code.Instruction
import StackLift.Code.Method
import StackLift.Json.Value
import StackLift.Json.Token
import StackLift.Json.Reader
import StackLift.Json.ReadBack
import StackLift.Code.Format
import StackLift.Code.Module
import StackLift.Lift.Error
import StackLift.Flow.Phi
import StackLift.Flow.Listing
import StackLift.Stack.Branch
import StackLift.Stack.Engine
import StackLift.Lift.Expr
import StackLift.Lift.Walk
import StackLift.Lift.Report
import StackLift.Toml.Value
import StackLift.Toml.Document
import StackLift.Command.Arguments
import StackLift.Command.Settings
import StackLift.Command.Run
import StackLift.Main
import StackLift.Proofs.Engine.Order
import StackLift.Proofs.Engine.Settled
import StackLift.Proofs.Engine.Values
import StackLift.Proofs.Engine.Account
import StackLift.Proofs.Lift.Pops
import StackLift.Proofs.Lift.Taking
import StackLift.Proofs.Lift.Draft
import StackLift.Proofs.Lift.Outcome
import StackLift.Proofs.Lift.Merges
import StackLift.Proofs.Lift.OneStack
import StackLift.Proofs.Lift.Effects
import StackLift.Proofs.Engine.Load
import StackLift.Proofs.Engine.Reach
import StackLift.Proofs.Engine.Conserved
import StackLift.Proofs.Engine.Anchored
import StackLift.Proofs.Engine.Nested
import StackLift.Proofs.Engine.OnlyActive
import StackLift.Proofs.Source.Layout
import StackLift.Proofs.Source.Labels
import StackLift.Proofs.Source.Operands
import StackLift.Proofs.Source.Rebuild
import StackLift.Proofs.Source.Assignments
import StackLift.Proofs.Source.Blocks
import StackLift.Proofs.Source.Structured
import StackLift.Proofs.Machine.Run
import StackLift.Proofs.Machine.Straight
import StackLift.Proofs.Machine.Compiled
import StackLift.Proofs.Machine.Sound
import StackLift.Proofs.Code.Saved
import StackLift.Proofs.Engine.Renumber
import StackLift.Proofs.Engine.Segment
import StackLift.Proofs.Lift.Placing
import StackLift.Proofs.Lift.History
import StackLift.Proofs.Code.Contract
import StackLift.Proofs.Listing.Neighbours
import StackLift.Proofs.Listing.Origin
import StackLift.Proofs.Code.Spelling
import StackLift.Proofs.Lift.Dump
