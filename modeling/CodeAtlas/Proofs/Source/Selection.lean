import CodeAtlas.Proofs.Source.Scans
import CodeAtlas.Proofs.Source.Patterns

/-! What the patterns of a scan say of the paths that it lists. Patterns that cannot be read are
left out before it is asked whether there are any, so they restrict nothing. -/

namespace CodeAtlas.Source

open FilePath

variable {path root : String} {o : ScanOptions}

end CodeAtlas.Source
