import MarkdownTree.Kind
import MarkdownTree.Value

/-!
# Faults

Everything that can go wrong, one constructor per cause. A cause keeps what its message needs; the wording is in
`message?`, and `shown` is how a fault appears inside the message of the fault that it led to.
-/

namespace MarkdownTree

/-- A value of a type that an operation cannot use. -/
inductive TypeFault where
  /-- A failure that no operation here has words for. -/
  | bare
  | visitTest (test : Value)
  | visitReply (reply : Value)
  | place (typeName : String)
  | source (typeName : String)
  | input (typeName : String)
  | registration (typeName : String)
  | literalChildren (kind : Kind)
  | leafChildren (kind : Kind)
deriving DecidableEq, Repr

/-- The message of a type fault. -/
def TypeFault.message? : TypeFault → Option String
  | bare => none
  | visitTest test => some ("Invalid visit test: " ++ test.literal)
  | visitReply reply => some ("Visit callbacks must return an Action, an int or None, got " ++ reply.literal)
  | place t => some ("Expected a Node, Position or Point, got " ++ t)
  | source t => some ("VFile value must be str or bytes, got " ++ t)
  | input t => some ("Expected text, bytes or a VFile, got " ++ t)
  | registration t => some ("Expected a PluginSpec, got " ++ t)
  | literalChildren kind => some (kind.typeName ++ " takes a single string value")
  | leafChildren kind => some (kind.typeName ++ " cannot have children")

/-- A value of the right type that is not allowed. -/
inductive ValueFault where
  | depth (depth : Value)
  | unorderedStart
  | negativeStart (start : Value)
  | invertedPosition (start stop : Int)
  | dataNamespace (name : Value)
  | emptyField
  /-- An item of a row of pairs that has another number of parts. -/
  | pairSize (index count : Nat)
  /-- So many parts where there should be two. -/
  | parts (count : Nat)
  | line (line : Int)
  | severity (severity : Value)
  /-- A numeral of a base without a digit. -/
  | noDigits (base : Nat)
  /-- A numeral of more digits than are read. -/
  | longNumeral (digits : Nat)
  /-- A number that is no character's. -/
  | codePoint
  | unknownKinds (names : List String)
  | rootRemoval
  | emptyPluginName
  | factory (plugin : String)
  | notPositive (option : String) (value : Value)
  | choice (option : String) (allowed : List String) (value : Value)
  /-- The first issue of a tree that was to have none. -/
  | invalidTree (issue : String)
deriving DecidableEq, Repr

/-- A row of allowed texts as messages show it. -/
def allowedTexts (allowed : List String) : String :=
  "(" ++ ", ".intercalate (allowed.map Text.quote) ++ ")"

/-- The message of a value fault. -/
def ValueFault.message : ValueFault → String
  | depth d => "Heading depth must be between 1 and 6, got " ++ d.literal
  | unorderedStart => "Unordered lists cannot have a start number"
  | negativeStart n => "List start must be non-negative, got " ++ n.literal
  | invertedPosition start stop => "Position end " ++ toString stop ++ " precedes start " ++ toString start
  | dataNamespace name => "Invalid data namespace: " ++ name.literal
  | emptyField => "Data field name must not be empty"
  | pairSize index count =>
    "dictionary update sequence element #" ++ toString index ++ " has length " ++ toString count ++ "; 2 is required"
  | parts count =>
    if count < 2 then "not enough values to unpack (expected 2, got " ++ toString count ++ ")"
    else "too many values to unpack (expected 2)"
  | line n => "Line " ++ toString n ++ " is out of range"
  | severity v => v.literal ++ " is not a valid Severity"
  | noDigits base => "invalid literal for int() with base " ++ toString base ++ ": ''"
  | longNumeral digits =>
    "Exceeds the limit (4300 digits) for integer string conversion: value has " ++ toString digits
      ++ " digits; use sys.set_int_max_str_digits() to increase the limit"
  | codePoint => "chr() arg not in range(0x110000)"
  | unknownKinds names => "Unknown node kinds: " ++ ", ".intercalate names
  | rootRemoval => "The root node cannot be removed"
  | emptyPluginName => "Plugin name cannot be empty"
  | factory plugin => "Plugin factory for '" ++ plugin ++ "' must be callable"
  | notPositive option value => option ++ " must be positive, got " ++ value.literal
  | choice option allowed value =>
    option ++ " must be one of " ++ allowedTexts allowed ++ ", got " ++ value.literal
  | invalidTree issue => issue

/-- A key or name that is not known. -/
inductive KeyFault where
  | unknownKind (name : Value)
  | notText (typeName : String)
  | notNamespaced (key : String)
  | missing (key : Value)
  | emptyView
  | notRegistered (plugin : String)
deriving DecidableEq, Repr

/-- What a key fault is about: the key itself, or a message. -/
def KeyFault.subject : KeyFault → Value
  | unknownKind name => .text ("Unknown node kind: " ++ name.literal)
  | notText t => .text ("Data keys must be strings, got " ++ t)
  | notNamespaced key => .text ("Data keys must be namespaced as 'plugin:field', got " ++ Text.quote key)
  | missing key => key
  | emptyView => .text ""
  | notRegistered plugin => .text ("Plugin '" ++ plugin ++ "' not registered")

/-- A processor or plugin that is put together in a way that cannot work. -/
inductive ConfigFault where
  | frozen
  | unknownPlugin (name : String) (available : List String)
  | notPlugin (typeName : String)
  | optionsNotMap (typeName : String)
  | unknownOption (plugin option : String) (known : List String)
  | optionType (option : String) (expected : List String) (typeName : String)
  | optionChoice (option : String) (choices : List Value) (value : Value)
  | notTransformer (plugin typeName : String)
  | printerOptions (printer expected typeName : String)
  /-- A fault that a plugin finds in its own options. -/
  | custom (message parameter : String)
deriving DecidableEq, Repr

/-- Names with a comma between neighbours, or a word for having none. -/
def nameList (names : List String) : String :=
  if names.isEmpty then "none" else ", ".intercalate names

/-- The message of a configuration fault. -/
def ConfigFault.message : ConfigFault → String
  | frozen => "Cannot add plugins to a frozen processor; call use() before freeze()"
  | unknownPlugin name available => "Unknown plugin '" ++ name ++ "'. Available plugins: " ++ nameList available
  | notPlugin t => "Plugins must be callable, got " ++ t
  | optionsNotMap t => "Plugin options must be a mapping, got " ++ t
  | unknownOption plugin option known =>
    "Plugin '" ++ plugin ++ "' has no option '" ++ option ++ "' (known options: " ++ nameList known ++ ")"
  | optionType option expected t =>
    "Option '" ++ option ++ "' expects " ++ " or ".intercalate expected ++ ", got " ++ t
  | optionChoice option choices value =>
    "Option '" ++ option ++ "' must be one of " ++ (Value.list choices).literal ++ ", got " ++ value.literal
  | notTransformer plugin t => "Plugin '" ++ plugin ++ "' returned " ++ t ++ "; expected a transformer or None"
  | printerOptions printer expected t => printer ++ " printer expects " ++ expected ++ ", got " ++ t
  | custom message _ => message

/-- The parameter that a configuration fault is about. -/
def ConfigFault.parameter : ConfigFault → String
  | frozen | unknownPlugin .. | notPlugin _ | notTransformer .. => "plugin"
  | optionsNotMap _ | printerOptions .. => "options"
  | unknownOption _ option _ | optionType option .. | optionChoice option .. => option
  | custom _ parameter => parameter

/-- A text or a stream of events that makes no tree. -/
inductive ParseFault where
  | treeless
  | afterEnd (kind : String)
  | unbalanced (kind : String) (expected : Option String)
  | unclosed (kind : String)
  | notRoot
  /-- A fault that a scanner reports in its own words. -/
  | custom (message stage : String)
deriving DecidableEq, Repr

/-- The message of a parse fault. -/
def ParseFault.message : ParseFault → String
  | treeless => "Scanner returned without a tree"
  | afterEnd kind => "Event " ++ Text.quote kind ++ " follows the end of the document"
  | unbalanced kind expected =>
    "Unbalanced event stream: exit of " ++ Text.quote kind ++ " while "
      ++ (expected.map Text.quote).getD "None" ++ " is open"
  | unclosed kind => "Event stream ended with " ++ Text.quote kind ++ " still open"
  | notRoot => "Event stream does not describe a root node"
  | custom message _ => message

/-- The stage of reading in which a parse fault arises. -/
def ParseFault.stage? : ParseFault → Option String
  | treeless => none
  | custom _ stage => some stage
  | _ => some "reduce"

/-- A tree that cannot be printed. -/
inductive PrintFault where
  | notRoot (kind : Kind)
  | noHandler (kind : Kind)
deriving DecidableEq, Repr

/-- The message of a print fault. -/
def PrintFault.message : PrintFault → String
  | notRoot kind => "Can only print a root node, got " ++ kind.typeName
  | noHandler kind => "No handler for node kind " ++ Text.quote kind.name

/-- The kind of the node that could not be printed. -/
def PrintFault.kind : PrintFault → Kind
  | notRoot kind | noHandler kind => kind

/-- A serialized tree that does not decode. -/
inductive DecodeFault where
  | notJson
  | notObject
  | version (version : Value)
  | notNode (typeName : String)
  | unknownKind (name : Value)
  | childrenNotList (kind : Kind)
  | position (value : Value)
deriving DecidableEq, Repr

/-- A value as running text shows it: texts stand without quotes. -/
def Value.plainText : Value → String
  | .text s => s
  | v => v.literal

/-- The message of a decode fault. -/
def DecodeFault.message : DecodeFault → String
  | notJson => "Invalid JSON: <JSONDecodeError>"
  | notObject => "Serialized tree must be a JSON object"
  | version v => "Unsupported schema version " ++ v.plainText ++ "; expected 1"
  | notNode t => "Serialized node must be a dict with a 'kind' key, got " ++ t
  | unknownKind name => "Unknown node kind: " ++ name.literal
  | childrenNotList kind => "'children' of " ++ kind.name ++ " must be a list"
  | position v => "Invalid position: " ++ v.literal

/-- What went wrong. -/
inductive Fault where
  | type (fault : TypeFault)
  | value (fault : ValueFault)
  | key (fault : KeyFault)
  /-- There is no item at that place. -/
  | index
  /-- There is no such field. -/
  | field
  /-- A walk that goes on for ever. -/
  | endless
  | config (fault : ConfigFault)
  /-- A plugin that fails while it is being attached. -/
  | attach (plugin : String) (cause : Fault)
  /-- A transformer that has to be waited for where nothing waits. -/
  | synchrony (plugin : String)
  | parse (fault : ParseFault)
  /-- Events whose node cannot be made. -/
  | event (kind : String) (cause : Fault)
  | print (fault : PrintFault)
  /-- A transformer that fails. -/
  | transformer (plugin : String) (cause : Fault)
  /-- A transformer that returns neither a root nor nothing. -/
  | result (plugin : Option String) (typeName : String)
  /-- A stage that gave up on the file, with the text of its fatal diagnostic. -/
  | failure (text : String)
  /-- A fault that has the file with it whose run it ended. -/
  | carrying (fault : Fault)
  | decode (fault : DecodeFault)
  /-- Decoded fields whose node cannot be made. -/
  | construct (kind : Kind) (cause : Fault)
  /-- A fault of a plugin's own, of the given name. -/
  | foreign (name message : String)
deriving Repr

namespace Fault

/-- The fault of a wrong type that has no message. -/
def mistyped : Fault :=
  .type .bare

/-- How a fault appears at the end of another fault's message. -/
def shown : Fault → String
  | type _ => "<TypeError>"
  | value f => f.message
  | key f => f.subject.literal
  | index => "<IndexError>"
  | field => "<AttributeError>"
  | endless => "<RecursionError>"
  | config f => f.message
  | attach plugin cause => "Plugin '" ++ plugin ++ "' failed to initialize: " ++ cause.shown
  | synchrony plugin => "Plugin '" ++ plugin ++ "' returned an awaitable; use process() instead of process_sync()"
  | parse f => f.message
  | event kind cause => "Cannot build " ++ Text.quote kind ++ " node: " ++ cause.shown
  | print f => f.message
  | transformer name cause => "Plugin '" ++ name ++ "' failed: " ++ cause.shown
  | result plugin t =>
    "Transformer of plugin '" ++ plugin.getD "None" ++ "' returned " ++ t ++ "; expected a root node or None"
  | failure text => text
  | carrying f => f.shown
  | decode f => f.message
  | construct kind cause => "Cannot build " ++ kind.typeName ++ ": " ++ cause.shown
  | foreign _ message => message

/-- What a fault says of itself: usually a text, of a missing key the key. -/
def message? : Fault → Option Value
  | type f => f.message?.map .text
  | key f => some f.subject
  | index | field | endless | foreign .. => none
  | carrying f => f.message?
  | f => some (.text f.shown)

/-- The plugin that a fault is about. -/
def plugin? : Fault → Option String
  | synchrony plugin | transformer plugin _ => some plugin
  | result plugin _ => plugin
  | carrying f => f.plugin?
  | _ => none

/-- The parameter that a fault is about. -/
def parameter? : Fault → Option String
  | config f => some f.parameter
  | attach .. | synchrony _ => some "plugin"
  | carrying f => f.parameter?
  | _ => none

/-- The stage of reading in which a fault arises. -/
def stage? : Fault → Option String
  | parse f => f.stage?
  | event .. => some "reduce"
  | carrying f => f.stage?
  | _ => none

/-- The kind of the node that a fault is about. -/
def kind? : Fault → Option Kind
  | print f => some f.kind
  | carrying f => f.kind?
  | _ => none

/-- The fault ends a run in an orderly way, with its own words for the outside. -/
def isOrderly : Fault → Bool
  | type _ | value _ | key _ | index | field | endless | foreign .. => false
  | carrying f => f.isOrderly
  | _ => true

/-- The fault is about the way a processor or a plugin is put together. -/
def isConfig : Fault → Bool
  | config _ | attach .. | synchrony _ => true
  | carrying f => f.isConfig
  | _ => false

/-- The fault has the file with it, as it always has where a stage gave up on the file. -/
def carriesFile : Fault → Bool
  | failure _ | carrying _ => true
  | _ => false

/-- The fault with the file; only orderly faults can have it with them. -/
def withFile (f : Fault) : Fault :=
  if f.isOrderly && !f.carriesFile then carrying f else f

end Fault

end MarkdownTree
