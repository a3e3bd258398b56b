import WordAsm.Main
import WordAsm.Proofs.DependencyOrder
import WordAsm.Proofs.ExchangedStores
import WordAsm.Proofs.ExprWeights
import WordAsm.Proofs.FiledCode
import WordAsm.Proofs.Folding
import WordAsm.Proofs.InputOrder
import WordAsm.Proofs.LinkFaults
import WordAsm.Proofs.MacroEnds
import WordAsm.Proofs.ParsedIncludes
import WordAsm.Proofs.PipelineEdits
import WordAsm.Proofs.ReportedCircles
import WordAsm.Proofs.ScanAgreement
import WordAsm.Proofs.SelfRelocation
import WordAsm.Proofs.SymbolHandles
import WordAsm.Proofs.SymbolMaps
import WordAsm.Proofs.TrailingTokens
import WordAsm.Proofs.UnitChain
