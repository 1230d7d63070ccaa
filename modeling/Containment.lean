import Containment.Config.Json
import Containment.Proofs.Index.Family
import Containment.Proofs.Index.Search
import Containment.Proofs.Index.Structure
import Containment.Version
import Containment.Proofs.Trie.Change
import Containment.Proofs.Trie.Verdict
import Containment.Proofs.Trie.Founders
import Containment.Proofs.Index.Representatives
import Containment.Proofs.Trie.Likeness
import Containment.Proofs.Index.Confluence
import Containment.Proofs.Index.Session
import Containment.Proofs.Index.Convergence
import Containment.Proofs.Index.Transcript
import Containment.Proofs.Index.Accretion
import Containment.Proofs.Index.Beginnings
import Containment.Proofs.Trie.Positions
import Containment.Proofs.Index.Operation
import Containment.Proofs.Index.Reordering
import Containment.Proofs.Index.Accounts
import Containment.Proofs.Trie.Laid
import Containment.Proofs.Trie.Insertion
import Containment.Proofs.Trie.Interruption
import Containment.Proofs.Index.Rejection
import Containment.Proofs.Trie.Generations
import Containment.Proofs.Trie.Visits
import Containment.Proofs.Index.Log
import Containment.Proofs.Trie.Cost
import Containment.Proofs.Order.Lexicographic
import Containment.Proofs.Trie.SupersetCost
import Containment.Proofs.Trie.Preorder
import Containment.Proofs.Trie.Fronts
import Containment.Proofs.Index.Listing
import Containment.Proofs.Trie.Faithful
import Containment.Proofs.Canonical.Sorting
import Containment.Proofs.Canonical.Accepted
import Containment.Proofs.Tally.Calls
import Containment.Proofs.Json.Assembly
import Containment.Proofs.Json.Grammar
import Containment.Proofs.Json.Lexing
import Containment.Proofs.Json.Reading
import Containment.Proofs.Config
import Containment.Proofs.Config.Text
import Containment.Proofs.Trie.Pairing
import Containment.Proofs.Trie.Siblings
import Containment.Proofs.Correspondence
import Containment.Proofs.Json.Codec
import Containment.Proofs.Json.Plain
