import DiagramText.Diagnostic

/-!
# Failures

A run fails because a file cannot be read or written, because the
configuration cannot be used, or because the document has errors.
-/

set_option autoImplicit false

namespace DiagramText

inductive FileFault where
  | notFound
  | notDirectory
  | isDirectory
  | nameTooLong
  | endedPath
  | notUtf8
  | other (text : String)
  deriving DecidableEq, Repr

def FileFault.message : FileFault → String
  | notFound => "No such file or directory (os error 2)"
  | notDirectory => "Not a directory (os error 20)"
  | isDirectory => "Is a directory (os error 21)"
  | nameTooLong => "File name too long (os error 36)"
  | endedPath => "file name contained an unexpected NUL byte"
  | notUtf8 => "stream did not contain valid UTF-8"
  | other text => text

inductive ConfigFault where
  | missing (path : String)
  | malformed (path reason : String)
  | other (text : String)
  deriving DecidableEq, Repr

def ConfigFault.message : ConfigFault → String
  | missing path => "Missing configuration file: " ++ path
  | malformed path reason => "Failed to parse TOML configuration in " ++ path ++ ": " ++ reason
  | other text => text

inductive Failure where
  | file (fault : FileFault)
  | document (diagnostics : List Diagnostic) (source : String)
  | config (fault : ConfigFault)
  deriving DecidableEq, Repr

namespace Failure

def message : Failure → String
  | file f => "I/O error: " ++ f.message
  | document ds _ => Diagnostic.summary ds
  | config f => "Configuration error: " ++ f.message

end Failure

end DiagramText
