import DeadCode.FileName
import DeadCode.Grammar.Source
import DeadCode.Tree.Facts

/- Reading the text of a file: the text is parsed, and its tree gives the extraction unless some part
   of it has no reading. -/
namespace DeadCode

inductive SourceError where
  | damaged (relPath : String) (line : Nat)
  | undecodable (path : String)
  deriving DecidableEq, Repr

def SourceError.message : SourceError → String
  | .damaged relPath line => "Syntax error in " ++ relPath ++ " near line " ++ toString line
  | .undecodable path => "Failed to read " ++ FileName.shown path ++ ": stream did not contain valid UTF-8"

namespace SourceFile

def extractTree (file : SourceFile) (tree : Tree.Node) : Except SourceError Extraction :=
  if tree.hasError then .error (.damaged file.relPath tree.firstErrorLine)
  else .ok (tree.extraction file)

def extract (file : SourceFile) (source : String) : Except SourceError Extraction :=
  file.extractTree (Grammar.parse source)

end SourceFile
end DeadCode
