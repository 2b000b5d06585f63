/-! # Version — the number of this release -/

namespace BraceLang

/-- The version that the command line shows. -/
def version : String :=
  "0.1.0"

end BraceLang
