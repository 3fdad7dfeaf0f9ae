import LC3.Main
import LC3.Console.Script
import LC3.Console.Key
import LC3.Console.Feed
import LC3.Console.Recorder
import LC3.Files.Tree
import LC3.Command.Session
import LC3.Panel
import LC3.Checked.Step
import LC3.Checked.Key
import LC3.Proofs.Fields
import LC3.Proofs.Step
import LC3.Proofs.InstructionSet
import LC3.Proofs.StringLoop
import LC3.Proofs.TrapTable
import LC3.Proofs.InputQueue
import LC3.Proofs.Reads
import LC3.Proofs.Writes
import LC3.Proofs.Lockstep
import LC3.Proofs.PipedInput
import LC3.Proofs.StreamDelivery
import LC3.Proofs.Footprint
import LC3.Proofs.UnreadInput
import LC3.Proofs.CommandLine
import LC3.Proofs.Finality
import LC3.Proofs.Overlay
import LC3.Proofs.ConditionCode
import LC3.Proofs.UnknownTraps
import LC3.Proofs.FaultReport
import LC3.Proofs.PositionIndependence
import LC3.Proofs.EchoLoop
import LC3.Proofs.ImageLoad
import LC3.Proofs.StringFormats
import LC3.Proofs.KeyLatch
import LC3.Proofs.FlushOrder
import LC3.Proofs.Checks
import LC3.Proofs.OutOfInput
import LC3.Proofs.SignExtension
import LC3.Proofs.TypedText
