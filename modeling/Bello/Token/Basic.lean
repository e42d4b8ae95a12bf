import Bello.Span

/- The words of the language, how they are spelled, and tokens: pieces of a source with their
   kind and place. -/
namespace Bello

/-! ## Words -/

/-- Keywords. Three of them end in a bang, which belongs to the word. -/
inductive Keyword where
  | bello | oca | stopa | naidu | trusela | poop
  | boss | biDo | uhOh | kemari | again | guoleila
  | tulalilloo | ti | amo | tank | yu | da
  | no | aspetta | bapple | booYa | loka
deriving DecidableEq

/-- Operator words. -/
inductive Operator where
  | lumai | melomo | flavuk | dibotada | poopaye | pado
  | beedo | con | nocon | la | lacon | looka
  | too | tropa | boCa | makoroni
deriving DecidableEq

namespace Keyword

/-- The spelling that messages use. -/
def spelling : Keyword → String
  | .bello => "bello!"
  | .oca => "oca!"
  | .stopa => "stopa"
  | .naidu => "naidu!"
  | .trusela => "trusela"
  | .poop => "poop"
  | .boss => "boss"
  | .biDo => "bi-do"
  | .uhOh => "uh-oh"
  | .kemari => "kemari"
  | .again => "again"
  | .guoleila => "guoleila"
  | .tulalilloo => "tulalilloo"
  | .ti => "ti"
  | .amo => "amo"
  | .tank => "tank"
  | .yu => "yu"
  | .da => "da"
  | .no => "no"
  | .aspetta => "aspetta"
  | .bapple => "bapple"
  | .booYa => "boo-ya"
  | .loka => "loka"

/-- The name in structured output. -/
def label : Keyword → String
  | .bello => "Bello"
  | .oca => "Oca"
  | .stopa => "Stopa"
  | .naidu => "Naidu"
  | .trusela => "Trusela"
  | .poop => "Poop"
  | .boss => "Boss"
  | .biDo => "BiDo"
  | .uhOh => "UhOh"
  | .kemari => "Kemari"
  | .again => "Again"
  | .guoleila => "Guoleila"
  | .tulalilloo => "Tulalilloo"
  | .ti => "Ti"
  | .amo => "Amo"
  | .tank => "Tank"
  | .yu => "Yu"
  | .da => "Da"
  | .no => "No"
  | .aspetta => "Aspetta"
  | .bapple => "Bapple"
  | .booYa => "BooYa"
  | .loka => "Loka"

/-- Every spelling with its keyword. The truth values have a capitalized form too. -/
def table : List (String × Keyword) := [
  ("bello!", .bello), ("oca!", .oca), ("stopa", .stopa), ("naidu!", .naidu),
  ("trusela", .trusela), ("poop", .poop), ("boss", .boss), ("bi-do", .biDo), ("uh-oh", .uhOh),
  ("kemari", .kemari), ("again", .again), ("guoleila", .guoleila), ("tulalilloo", .tulalilloo),
  ("ti", .ti), ("amo", .amo), ("tank", .tank), ("yu", .yu), ("da", .da), ("Da", .da),
  ("no", .no), ("No", .no), ("aspetta", .aspetta), ("bapple", .bapple), ("boo-ya", .booYa),
  ("loka", .loka)]

def ofWord? (word : String) : Option Keyword := table.lookup word

end Keyword

namespace Operator

/-- The spelling of an operator word. -/
def spelling : Operator → String
  | .lumai => "lumai"
  | .melomo => "melomo"
  | .flavuk => "flavuk"
  | .dibotada => "dibotada"
  | .poopaye => "poopaye"
  | .pado => "pado"
  | .beedo => "beedo"
  | .con => "con"
  | .nocon => "nocon"
  | .la => "la"
  | .lacon => "lacon"
  | .looka => "looka"
  | .too => "too"
  | .tropa => "tropa"
  | .boCa => "bo-ca"
  | .makoroni => "makoroni"

/-- The name in structured output. -/
def label : Operator → String
  | .lumai => "Lumai"
  | .melomo => "Melomo"
  | .flavuk => "Flavuk"
  | .dibotada => "Dibotada"
  | .poopaye => "Poopaye"
  | .pado => "Pado"
  | .beedo => "Beedo"
  | .con => "Con"
  | .nocon => "Nocon"
  | .la => "La"
  | .lacon => "Lacon"
  | .looka => "Looka"
  | .too => "Too"
  | .tropa => "Tropa"
  | .boCa => "BoCa"
  | .makoroni => "Makoroni"

/-- Every spelling with its operator. -/
def table : List (String × Operator) := [
  ("lumai", .lumai), ("melomo", .melomo), ("flavuk", .flavuk), ("dibotada", .dibotada),
  ("poopaye", .poopaye), ("pado", .pado), ("beedo", .beedo), ("con", .con), ("nocon", .nocon),
  ("la", .la), ("lacon", .lacon), ("looka", .looka), ("too", .too), ("tropa", .tropa),
  ("bo-ca", .boCa), ("makoroni", .makoroni)]

def ofWord? (word : String) : Option Operator := table.lookup word

end Operator

/-! ## Tokens -/

namespace Token

/-- What a piece of text is. A number that runs into letters is `malformed`. -/
inductive Kind where
  | keyword (word : Keyword)
  | identifier
  | number
  | text
  | operator (word : Operator)
  | delimiter
  | comment
  | blank
  | endOfInput
  | malformed
deriving DecidableEq

namespace Kind

/-- The name of a kind in messages. -/
def name : Kind → String
  | keyword _ => "keyword"
  | identifier => "identifier"
  | number => "number literal"
  | text => "string literal"
  | operator _ => "operator"
  | delimiter => "delimiter"
  | comment => "comment"
  | blank => "whitespace"
  | endOfInput => "end of input"
  | malformed => "error"

/-- Kinds that carry no meaning. -/
def isTrivia : Kind → Bool
  | blank | comment => true
  | _ => false

end Kind

/-- How a message speaks of a token of this kind and text. -/
def describe (kind : Kind) (lexeme : String) : String :=
  match kind with
  | .endOfInput => "end of input"
  | _ => s!"'{lexeme}' ({kind.name})"

end Token

/-- A piece of text of the source. -/
structure Token where
  kind : Token.Kind
  lexeme : String
  span : Span
deriving DecidableEq

namespace Token

/-- The token that closes every sequence. -/
def endOfInput (offset : Nat) : Token := ⟨.endOfInput, "", .point offset⟩

def isTrivia (t : Token) : Bool := t.kind.isTrivia

def isKeyword (t : Token) (word : Keyword) : Bool := t.kind == .keyword word

def isOperator (t : Token) (word : Operator) : Bool := t.kind == .operator word

def isDelimiter (t : Token) (text : String) : Bool := t.kind == .delimiter && t.lexeme == text

def isIdentifier (t : Token) (name : String) : Bool := t.kind == .identifier && t.lexeme == name

def isEnd (t : Token) : Bool := t.kind == .endOfInput

end Token

end Bello
