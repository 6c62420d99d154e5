import Ixml.Bnf.Build
import Ixml.Grammar.Check
import Ixml.Grammar.Reader
import Ixml.Options.Basic
import Ixml.Pragma
import Ixml.Simplify.Basic

/-!
# From a grammar text to rules

A grammar text is read, its pragmas are understood, its definitions are checked, and what they define is
simplified and brought into BNF. The first thing that is wrong ends it.
-/

namespace Ixml

/-- The grammar that a text means: it is read, and its pragmas are understood. -/
def Grammar.understood (source : String) : Except Error Grammar := do
  let g ← read source
  let (verdict, noted) := Pragma.understandAll.perform g
  verdict
  return noted.state

/-- Read a grammar text, and simplify the grammar if nothing is wrong with it. -/
def Grammar.ofSource (source : String) (options : Options) : Except Error Grammar := do
  let g ← understood source
  g.check options.checkUndefinedNonterminals
  return (Simplify.simplify options.strategy g).grammar

/-- The BNF of a grammar text. -/
def Bnf.ofSource (source : String) (options : Options) : Except Error Bnf := do
  ofGrammar (← Grammar.ofSource source options)

end Ixml
