/-!
# Options

What a caller can choose about compilation and about the result.
-/

namespace Ixml

/-- How repetitions are simplified. -/
inductive Strategy
  /-- By way of options and plain repetitions, as the hints of the specification have it. -/
  | spec
  /-- Directly into pairs of an empty and a recursive rule. -/
  | alternate
deriving DecidableEq, Repr, Inhabited

namespace Strategy

/-- The name in option texts. -/
def name : Strategy → String
  | spec => "spec"
  | alternate => "alternate"

/-- The name in notes. -/
def title : Strategy → String
  | spec => "Spec"
  | alternate => "Alternate"

/-- The strategy with a given name. -/
def ofName? (s : String) : Option Strategy :=
  [spec, alternate].find? (·.name == s)

end Strategy

/-- The options, with their defaults. -/
structure Options where
  strategy : Strategy := .spec
  /-- Report every result for which there was a choice as ambiguous, not only one for which priorities
  did not decide. -/
  strictAmbiguity : Bool := false
  suppressAmbiguousState : Bool := false
  suppressVersionMismatchState : Bool := false
  /-- Show hidden nonterminals as wrapper elements. -/
  showBnfNonterminals : Bool := false
  assertValidXmlNames : Bool := true
  assertValidXmlCharacters : Bool := true
  /-- Include the chart in error documents. -/
  showChart : Bool := false
  checkUndefinedNonterminals : Bool := true
deriving DecidableEq, Repr, Inhabited

namespace Options

/-- Accept any names and characters, or turn both checks on again. -/
def setPermissive (o : Options) (permissive : Bool) : Options :=
  { o with assertValidXmlNames := !permissive, assertValidXmlCharacters := !permissive }

/-- Choose which states the result does not report. -/
def suppressStates (o : Options) (ambiguous versionMismatch : Bool) : Options :=
  { o with suppressAmbiguousState := ambiguous, suppressVersionMismatchState := versionMismatch }

/-- The options that are on or off, with the names in option texts, in the order of the fields. -/
def flags (o : Options) : List (String × Bool) :=
  [("strict-ambiguity", o.strictAmbiguity),
    ("suppress-ambiguous-state", o.suppressAmbiguousState),
    ("suppress-version-mismatch-state", o.suppressVersionMismatchState),
    ("show-bnf-nonterminals", o.showBnfNonterminals),
    ("assert-valid-xml-names", o.assertValidXmlNames),
    ("assert-valid-xml-characters", o.assertValidXmlCharacters),
    ("show-chart", o.showChart),
    ("check-undefined-nonterminals", o.checkUndefinedNonterminals)]

/-- The name of the strategy in option texts. -/
def strategyKey : String := "rewrite-strategy"

/-- The names of all options in the order of the fields. -/
def keys : List String :=
  strategyKey :: ({} : Options).flags.map (·.1)

/-- Turn an option on or off by its name; an unknown name changes nothing. -/
def setFlag (o : Options) (key : String) (b : Bool) : Options :=
  if key == "strict-ambiguity" then { o with strictAmbiguity := b }
  else if key == "suppress-ambiguous-state" then { o with suppressAmbiguousState := b }
  else if key == "suppress-version-mismatch-state" then { o with suppressVersionMismatchState := b }
  else if key == "show-bnf-nonterminals" then { o with showBnfNonterminals := b }
  else if key == "assert-valid-xml-names" then { o with assertValidXmlNames := b }
  else if key == "assert-valid-xml-characters" then { o with assertValidXmlCharacters := b }
  else if key == "show-chart" then { o with showChart := b }
  else if key == "check-undefined-nonterminals" then { o with checkUndefinedNonterminals := b }
  else o

end Options

end Ixml
