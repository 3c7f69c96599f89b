import Marginalia.Main
import Marginalia.Proofs.Reconcile.Idempotence
import Marginalia.Proofs.Language.Builtin
import Marginalia.Proofs.Reconcile.Recovery
import Marginalia.Store.Overwrite
import Marginalia.Proofs.Path.Parts
import Marginalia.Proofs.Path.Plain
import Marginalia.Proofs.Discovery.SingleFile
import Marginalia.Proofs.Store.Integrity
import Marginalia.Proofs.Store.Clients
import Marginalia.Proofs.Time.Room
import Marginalia.Proofs.Reconcile.Interleaving
import Marginalia.Proofs.Discovery.Reading
import Marginalia.Proofs.Files.Walk
import Marginalia.Proofs.Discovery.Sources
import Marginalia.Proofs.Discovery.Batches
import Marginalia.Proofs.Command.Pruning
import Marginalia.Proofs.Command.Rescan
import Marginalia.Proofs.Discovery.StateDirectory
import Marginalia.Proofs.Command.FoundProject
import Marginalia.Proofs.Reconcile.ByFile
import Marginalia.Proofs.Reconcile.Concealed
import Marginalia.Proofs.Store.Readable
import Marginalia.Proofs.Store.Lifetime
import Marginalia.Proofs.Discovery.TodoPart
import Marginalia.Proofs.Language.Extraction
import Marginalia.Proofs.TagSet
import Marginalia.Proofs.Language.Kinds
import Marginalia.Proofs.Language.Merging
import Marginalia.Proofs.Reconcile.Difference
import Marginalia.Proofs.Reconcile.Emptying
import Marginalia.Proofs.Command.Listing
import Marginalia.Proofs.Discovery.Collecting
import Marginalia.Proofs.Language.LineEnds
import Marginalia.Proofs.Path.Relative
import Marginalia.Proofs.Discovery.Faithful
import Marginalia.Proofs.Path.Lexical
import Marginalia.Proofs.Files.Create
import Marginalia.Proofs.Command.Standing
import Marginalia.Proofs.Command.NotePath
import Marginalia.Proofs.Command.Settings
import Marginalia.Proofs.Config.Lossless
import Marginalia.Proofs.Store.Search
import Marginalia.Proofs.TagSet.Canonical
import Marginalia.Proofs.Discovery.Registered
import Marginalia.Proofs.Reconcile.Keys
import Marginalia.Proofs.Syntax.Walk
