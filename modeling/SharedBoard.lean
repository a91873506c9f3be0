import SharedBoard.Board.Consistency
import SharedBoard.CommandLine
import SharedBoard.Main
import SharedBoard.Proofs.Board.Commutation
import SharedBoard.Proofs.Replica.Acknowledgement
import SharedBoard.Proofs.Replica.Redo
import SharedBoard.Proofs.Replica.Delivery
import SharedBoard.Proofs.Board.Repetition
import SharedBoard.Proofs.Replica.Repetition
import SharedBoard.Proofs.Replica.Rejection
import SharedBoard.Proofs.Replica.Rejoin
import SharedBoard.Proofs.Session.Reversal
import SharedBoard.Proofs.Session.Memory
import SharedBoard.Proofs.Session.Visibility
import SharedBoard.Proofs.Loop.Delivery
import SharedBoard.Proofs.Board.DistinctColors
import SharedBoard.Proofs.Replica.Snapshots
import SharedBoard.Proofs.Board.Queries
import SharedBoard.Proofs.Loop.Publication
import SharedBoard.Proofs.Replica.Convergence
import SharedBoard.Proofs.Wire.RoundTrip
import SharedBoard.Proofs.Json.Indented
import SharedBoard.Proofs.Replica.Colors
import SharedBoard.Proofs.Replica.Expiry
import SharedBoard.Proofs.Script.Playing
import SharedBoard.Proofs.Replica.Guesses
