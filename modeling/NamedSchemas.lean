import NamedSchemas.Main
import NamedSchemas.Workspace
import NamedSchemas.Proofs.Extraction.Grouped
import NamedSchemas.Proofs.Extraction.Settled
import NamedSchemas.Proofs.Shortening.Shortened
import NamedSchemas.Proofs.Shortening.Unfolded
import NamedSchemas.Proofs.Registry.Consistency
import NamedSchemas.Proofs.Extraction.Digests
import NamedSchemas.Proofs.Extraction.Recognition
import NamedSchemas.Proofs.Extraction.Written
import NamedSchemas.Proofs.Workspace.Sessions
import NamedSchemas.Proofs.Shared.Frame
import NamedSchemas.Proofs.Extraction.Faults
import NamedSchemas.Proofs.Extraction.Identifiers
import NamedSchemas.Proofs.Shortening.OwnIdentifiers
import NamedSchemas.Proofs.Extraction.ComponentKeys
import NamedSchemas.Proofs.Extraction.Loaded
import NamedSchemas.Proofs.Extraction.LocalReferences
import NamedSchemas.Proofs.Extraction.Exhausted
import NamedSchemas.Proofs.Shortening.Targets
import NamedSchemas.Proofs.Workspace.Shortening
import NamedSchemas.Proofs.Shortening.Collisions
import NamedSchemas.Proofs.Extraction.Spelling
import NamedSchemas.Proofs.Naming.Language
import NamedSchemas.Proofs.Storage.SavedDocuments
import NamedSchemas.Proofs.Shortening.Owners
import NamedSchemas.Proofs.Workspace.Renaming
import NamedSchemas.Proofs.CommandLine.Runs
