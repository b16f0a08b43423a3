import AsyncErasure.Render.Statement
import AsyncErasure.Text.FileName

namespace AsyncErasure

/-- The head of a generated file, three comment lines that name its origin. -/
def banner (tool source : String) : String :=
  "# WARNING: this file is auto-generated by '" ++ tool ++ "'\n" ++
  "# from the original file '" ++ source ++ "'\n" ++
  "# DO NOT CHANGE! Change the original file instead.\n"

/-- A generated file: banner, module and a line end. Of the path only the file name is shown. -/
def Module.renderFile (m : Module) (path tool : String) : String :=
  banner tool ((Text.fileName? path).getD path) ++ m.render ++ "\n"

end AsyncErasure
