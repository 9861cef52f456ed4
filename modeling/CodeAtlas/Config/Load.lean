import CodeAtlas.Config.Settings
import CodeAtlas.Source.Disk
import CodeAtlas.Toml.Document

/-!
Settings read from texts and files. A directory may hold a file with settings for the files in it.
-/

namespace CodeAtlas.Config

inductive LoadError where
  | unreadable (fault : Source.Fault)
  | malformed
  | invalid (reason : Invalid)

/-- What is said of a failure. Of a malformed text no more is known than that it is one. -/
def LoadError.message : LoadError → String
  | unreadable fault => "Failed to read config file: " ++ fault.message
  | malformed => "Failed to parse config file"
  | invalid reason => "Invalid configuration: " ++ reason.message

def validate (c : Config) : Except LoadError Config :=
  match c.fault? with
  | some reason => .error (.invalid reason)
  | none => .ok c

def ofText (text : String) : Except LoadError Config :=
  match (Toml.parse text).bind ofValue? with
  | some c => c.validate
  | none => .error .malformed

def load (d : Source.Disk) (path : String) : Except LoadError Config :=
  match d.readText path with
  | .error fault => .error (.unreadable fault)
  | .ok text => ofText text

def fileName : String := "archscope.toml"

/-- The settings of a directory: those in its file, or the usual ones. -/
def discover (d : Source.Disk) (directory : String) : Except LoadError Config :=
  let path := FilePath.join directory fileName
  if d.isFile path then load d path else .ok default

end CodeAtlas.Config
