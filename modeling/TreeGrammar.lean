import TreeGrammar.Proofs.Anchoring
import TreeGrammar.Proofs.Blame
import TreeGrammar.Proofs.Expectations
import TreeGrammar.Proofs.Finiteness
import TreeGrammar.Proofs.Idempotence
import TreeGrammar.Proofs.Independence
import TreeGrammar.Proofs.LeastSolution
import TreeGrammar.Proofs.MissingAttributes
import TreeGrammar.Proofs.NormalText
import TreeGrammar.Proofs.OutlineText
import TreeGrammar.Proofs.Pool
import TreeGrammar.Proofs.Product
import TreeGrammar.Proofs.Protection
import TreeGrammar.Proofs.Recovery
import TreeGrammar.Proofs.Rejection
import TreeGrammar.Proofs.Reuse
import TreeGrammar.Proofs.Scoping
import TreeGrammar.Proofs.TypedTexts
import TreeGrammar.Proofs.Validity
import TreeGrammar.Session.Run
import TreeGrammar.Regex.ClassReader
import TreeGrammar.Regex.Compile
