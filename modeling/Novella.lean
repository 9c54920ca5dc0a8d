import Novella.Main
import Novella.Player.Bench
import Novella.Proofs.Cell.Observers
import Novella.Proofs.Command.Cues
import Novella.Proofs.Loop.TimeSlices
import Novella.Proofs.Loop.VirtualTime
import Novella.Proofs.Player.Interruption
import Novella.Proofs.Player.Jumps
import Novella.Proofs.Player.Presentation
import Novella.Proofs.Restore.Determinism
import Novella.Proofs.Reveal.Pauses
import Novella.Proofs.Reveal.Ticking
import Novella.Proofs.Save.Fingerprint
import Novella.Proofs.Save.ImportExport
import Novella.Proofs.Save.Retention
import Novella.Proofs.Script.ArgumentQuoting
import Novella.Proofs.Script.Comparisons
import Novella.Proofs.Script.ConditionGrammar
import Novella.Proofs.Script.LineRejoining
import Novella.Proofs.Script.SceneLines
import Novella.Proofs.Session.Rewind
import Novella.Proofs.Session.SettingsAgreement
import Novella.Proofs.Timer.Cancellation
import Novella.Proofs.Variable.Assignments
import Novella.Proofs.Variable.References
