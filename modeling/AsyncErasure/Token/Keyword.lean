namespace AsyncErasure

/-- Reserved words: never plain names. -/
inductive Keyword where
  | false_
  | none_
  | true_
  | and_
  | as_
  | assert_
  | async_
  | await_
  | break_
  | class_
  | continue_
  | def_
  | del_
  | elif_
  | else_
  | except_
  | finally_
  | for_
  | from_
  | global_
  | if_
  | import_
  | in_
  | is_
  | lambda_
  | nonlocal_
  | not_
  | or_
  | pass_
  | raise_
  | return_
  | try_
  | while_
  | with_
  | yield_
deriving DecidableEq, Repr

namespace Keyword

def text : Keyword → String
  | false_ => "False"
  | none_ => "None"
  | true_ => "True"
  | and_ => "and"
  | as_ => "as"
  | assert_ => "assert"
  | async_ => "async"
  | await_ => "await"
  | break_ => "break"
  | class_ => "class"
  | continue_ => "continue"
  | def_ => "def"
  | del_ => "del"
  | elif_ => "elif"
  | else_ => "else"
  | except_ => "except"
  | finally_ => "finally"
  | for_ => "for"
  | from_ => "from"
  | global_ => "global"
  | if_ => "if"
  | import_ => "import"
  | in_ => "in"
  | is_ => "is"
  | lambda_ => "lambda"
  | nonlocal_ => "nonlocal"
  | not_ => "not"
  | or_ => "or"
  | pass_ => "pass"
  | raise_ => "raise"
  | return_ => "return"
  | try_ => "try"
  | while_ => "while"
  | with_ => "with"
  | yield_ => "yield"

def all : List Keyword :=
  [false_, none_, true_, and_, as_, assert_, async_, await_, break_, class_, continue_, def_,
   del_, elif_, else_, except_, finally_, for_, from_, global_, if_, import_, in_, is_, lambda_,
   nonlocal_, not_, or_, pass_, raise_, return_, try_, while_, with_, yield_]

theorem mem_all (k : Keyword) : k ∈ all := by cases k <;> decide

def ofText? (word : String) : Option Keyword := all.find? fun k => k.text == word

end Keyword

end AsyncErasure
