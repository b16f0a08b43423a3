import AsyncErasure.Command.FileAccess
import AsyncErasure.Command.Libraries
import AsyncErasure.Conversion
import AsyncErasure.Dump
import AsyncErasure.Grammar.Module
import AsyncErasure.Render.Banner

/-!
A run of the command: from arguments, files and settings to an exit code and what is written. A
file is written last, so a run that fails leaves all files as they were.
-/

namespace AsyncErasure.Command

inductive Failure where
  | cannotRead (path : String) (fault : FileFault)
  | cannotWrite (path : String) (fault : FileFault)
  | cannotParse (path : String) (error : Grammar.Error)

def Failure.message : Failure → String
  | cannotRead path fault =>
    "Error: failed to read " ++ path ++ "\n\nCaused by:\n    " ++ fault.message ++ "\n"
  | cannotWrite path fault =>
    "Error: failed to write " ++ path ++ "\n\nCaused by:\n    " ++ fault.message ++ "\n"
  | cannotParse path error => "Error: " ++ error.report path ++ "\n"

structure Outcome where
  exit : Nat
  stdout : String
  /-- The events that the settings keep, in order. -/
  log : List Event
  failure : Option Failure

namespace Job

def target : String := "ds_parser::parse"

def tokenizedEvent (file : String) (tokens : List Token) : Event :=
  ⟨.trace, target, "tokenized",
    [("filename", .quoted file), ("tokens", .number tokens.length)]⟩

def parsedEvent (file : String) (m : Module) : Event :=
  ⟨.debug, target, "parsed module",
    [("filename", .quoted file), ("statements", .number m.body.length)]⟩

def convertedEvent (file : String) : Event :=
  ⟨.info, "async_to_sync", "converted", [("file", .text file)]⟩

/-- What the command makes of a parsed module. -/
def render (job : Job) (lib : Libraries) (tool : String) (m : Module) : String :=
  if job.dumpTree then lib.pretty m.dump ++ "\n"
  else (m.convert .standard).renderFile job.file.display tool

def renderEvents (job : Job) (m : Module) : List Event :=
  if job.dumpTree then []
  else m.conversionEvents .standard ++ [convertedEvent job.file.display]

/-- The text that a source gives, with the events on the way. -/
def produce (job : Job) (lib : Libraries) (tool source : String) :
    List Event × Except Grammar.Error String :=
  match Token.scan source with
  | .error e => ([], .error (.ofToken e))
  | .ok tokens =>
    let scanned := tokenizedEvent job.file.display tokens
    match Module.ofTokens tokens with
    | .error e => ([scanned], .error e)
    | .ok m =>
      (scanned :: parsedEvent job.file.display m :: job.renderEvents m, .ok (job.render lib tool m))

/-- Does a job: reads the file, makes the text and puts it where it goes. -/
def run [Monad m] (job : Job) (lib : Libraries) (files : FileAccess m) (tool : String) :
    m Outcome := do
  match ← files.read job.file with
  | .error fault => return ⟨1, "", [], some (.cannotRead job.file.display fault)⟩
  | .ok source =>
    match job.produce lib tool source with
    | (events, .error e) => return ⟨1, "", events, some (.cannotParse job.file.display e)⟩
    | (events, .ok text) =>
      match job.output with
      | none => return ⟨0, text, events, none⟩
      | some path =>
        match ← files.write path text with
        | .ok () => return ⟨0, "", events, none⟩
        | .error fault => return ⟨1, "", events, some (.cannotWrite path.display fault)⟩

end Job

/-- The name that the banner gives to the tool, if the system tells how the program was called. -/
def toolName (program : Option Path) : String :=
  (program.bind fun path => Text.fileName? path.display).getD "async-to-sync"

/-- Runs the command. Help ends well, misuse with code two. -/
def runWith [Monad m] (lib : Libraries) (files : FileAccess m) (settings : Settings)
    (program : Option Path) (args : List Path) : m Outcome := do
  match lib.intent args with
  | .help => return ⟨0, lib.help, [], none⟩
  | .misuse => return ⟨2, "", [], none⟩
  | .work job =>
    let outcome ← job.run lib files (toolName program)
    return { outcome with log := outcome.log.filter (settings.keeps lib) }

end AsyncErasure.Command
