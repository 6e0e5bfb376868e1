import ForthMachine.Main
import ForthMachine.Text.Reader
import ForthMachine.Proofs.Lines
import ForthMachine.Proofs.Definitions
import ForthMachine.Proofs.Bodies
import ForthMachine.Proofs.Shape
import ForthMachine.Proofs.Grammar
import ForthMachine.Proofs.Lockstep
import ForthMachine.Proofs.Calls
import ForthMachine.Proofs.Numerals
import ForthMachine.Proofs.Listings
import ForthMachine.Proofs.Dispatch
import ForthMachine.Proofs.OpenDefinitions
import ForthMachine.Proofs.Independence
import ForthMachine.Proofs.Nesting
import ForthMachine.Proofs.Quitting
import ForthMachine.Proofs.Records
import ForthMachine.Proofs.DepthLimit
import ForthMachine.Proofs.Logging
import ForthMachine.Proofs.Unrolling
import ForthMachine.Proofs.FileLines
import ForthMachine.Proofs.Sessions
import ForthMachine.Proofs.Apart
import ForthMachine.Proofs.LongerLines
import ForthMachine.Proofs.JoinedLines
import ForthMachine.Proofs.Locality
import ForthMachine.Proofs.Binding
import ForthMachine.Proofs.LogLevels
import ForthMachine.Proofs.Feeding
import ForthMachine.Proofs.Mismatches
import ForthMachine.Proofs.PostTest
import ForthMachine.Proofs.CountedLoops
import ForthMachine.Proofs.Leaving
import ForthMachine.Proofs.LoopIndices
import ForthMachine.Proofs.Atomicity
import ForthMachine.Proofs.Division
import ForthMachine.Proofs.Reading
import ForthMachine.Proofs.Installation
import ForthMachine.Proofs.Termination
import ForthMachine.Proofs.Recency
import ForthMachine.Proofs.Editing
import ForthMachine.Proofs.History
import ForthMachine.Proofs.LineReading
import ForthMachine.Proofs.ScreenCursor
import ForthMachine.Proofs.DepthCounter
