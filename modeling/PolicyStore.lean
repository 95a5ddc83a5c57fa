import PolicyStore.FileTree
import PolicyStore.Main
import PolicyStore.Proofs.Paf.Strictness
import PolicyStore.Proofs.Report.Union
import PolicyStore.Proofs.Schema.Blame
import PolicyStore.Proofs.Include.Arrays
import PolicyStore.Proofs.Include.Visiting
import PolicyStore.Proofs.Paf.Building
import PolicyStore.Proofs.Paf.Raising
import PolicyStore.Proofs.Paf.Reading
import PolicyStore.Proofs.Include.Resolution
import PolicyStore.Proofs.Include.Chains
import PolicyStore.Proofs.Include.Circles
import PolicyStore.Proofs.Dictionary.Blocks
import PolicyStore.Proofs.Include.Outcome
import PolicyStore.Proofs.Dictionary.Turning
import PolicyStore.Proofs.Dictionary.Rounds
import PolicyStore.Proofs.Dictionary.Loading
import PolicyStore.Proofs.Dictionary.Aging
import PolicyStore.Proofs.Dictionary.Lookups
import PolicyStore.Proofs.Merge.Contents
import PolicyStore.Proofs.Store.Forest
import PolicyStore.Proofs.Store.Linking
import PolicyStore.Proofs.Merge.Places
import PolicyStore.Proofs.Merge.Names
import PolicyStore.Proofs.Merge.Defaults
import PolicyStore.Proofs.Schema.Inside
import PolicyStore.Proofs.Schema.Checking
import PolicyStore.Proofs.Schema.Admission
import PolicyStore.Proofs.Update.Rewriting
import PolicyStore.Proofs.Update.Runs
import PolicyStore.Proofs.Schema.Missing
import PolicyStore.Proofs.Store.Ways
import PolicyStore.Proofs.Merge.Paths
import PolicyStore.Proofs.Merge.Settling
import PolicyStore.Proofs.Merge.Filling
import PolicyStore.Proofs.Merge.Required
import PolicyStore.Proofs.Paf.Balance
import PolicyStore.Proofs.Paf.Leniency
import PolicyStore.Proofs.Paf.Numbering
import PolicyStore.Proofs.Paf.Accepting
import PolicyStore.Proofs.Paf.Appending
import PolicyStore.Proofs.Paf.Nesting
import PolicyStore.Proofs.Paf.Noting
import PolicyStore.Proofs.Paf.Reusing
import PolicyStore.Proofs.Paf.Dropping
import PolicyStore.Proofs.Paf.Deleting
import PolicyStore.Proofs.Paf.Misnaming
import PolicyStore.Proofs.Paf.Flattening
import PolicyStore.Proofs.Schema.Spelling
import PolicyStore.Proofs.Dictionary.Spelling
import PolicyStore.Proofs.Update.Points
import PolicyStore.Proofs.Dictionary.Editing
import PolicyStore.Proofs.Store.Worlds
import PolicyStore.Proofs.Store.Listing
import PolicyStore.Proofs.Include.Modes
import PolicyStore.Proofs.Store.Aliasing
import PolicyStore.Proofs.Paf.Recognition
import PolicyStore.Proofs.Store.Attaching
import PolicyStore.Proofs.Loading.Detaching
import PolicyStore.Proofs.Loading.Modes
import PolicyStore.Proofs.Schema.Extracting
import PolicyStore.Proofs.Merge.Extracting
import PolicyStore.Proofs.Paf.Extending
import PolicyStore.Proofs.Paf.Swallowing
import PolicyStore.Proofs.Paf.Counting
import PolicyStore.Proofs.Paf.Depth
import PolicyStore.Proofs.Include.Halfway
import PolicyStore.Proofs.Update.InPlace
import PolicyStore.Proofs.Merge.Applying
import PolicyStore.Proofs.Schema.Descending
import PolicyStore.Proofs.Report.Accumulating
import PolicyStore.Proofs.Schema.Bounds
import PolicyStore.Proofs.Dictionary.Unfolding
import PolicyStore.Proofs.Dictionary.Gathering
import PolicyStore.Proofs.Dictionary.Feeding
import PolicyStore.Proofs.Dictionary.Levels
import PolicyStore.Proofs.Dictionary.Depth
import PolicyStore.Proofs.Schema.Tallying
import PolicyStore.Proofs.Update.Emptying
import PolicyStore.Proofs.Paf.Valuing
import PolicyStore.Proofs.Paf.Joining
