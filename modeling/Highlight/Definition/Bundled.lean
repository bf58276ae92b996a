import Highlight.Definition.Set

/-!
The definitions that come with the library.
-/

namespace Highlight.Definition

/--
Words on several lines as one text.
-/
def joined (lines : List String) : KeywordSource :=
  .text (" ".intercalate lines)

def rust : Definition :=
  { name := "rust"
    lexer? := some "rust"
    extensions := ["rs"]
    keywords := .ofList
      [("primary", joined
         ["as async await break const continue crate dyn else enum extern false fn for if",
          "impl in let loop match mod move mut pub ref return self Self static struct super",
          "trait true type unsafe use where while"]),
       ("secondary", .text "abstract become box do final macro override priv try typeof unsized virtual yield"),
       ("doc", .text "param return returns see since throws todo"),
       ("types", joined
         ["bool char f32 f64 i8 i16 i32 i64 i128 isize str u8 u16 u32 u64 u128 usize Box",
          "Option Result String Vec"])]
    options := .ofList
      [("fold", .switch true),
       ("fold.compact", .switch false),
       ("fold.comment", .switch true)] }

def haskell : Definition :=
  { name := "haskell"
    lexer? := some "haskell"
    extensions := ["hs", "lhs"]
    keywords := .ofList
      [("keywords", joined
         ["case class data default deriving do else forall foreign if import in infix infixl",
          "infixr instance let module newtype of then type where"]),
       ("ffi", .text "ccall capi cplusplus dotnet export import jvm prim safe stdcall unsafe")]
    options := .ofList
      [("lexer.haskell.allow.hash", .switch true)] }

def tcl : Definition :=
  { name := "tcl"
    lexer? := some "tcl"
    extensions := ["tcl", "tk", "itcl"]
    keywords := .ofList
      [("tcl", joined
         ["after append array break catch cd close concat continue dict else elseif eof error",
          "eval exec exit expr fconfigure file for foreach format gets glob global if incr",
          "info join lappend lindex linsert list llength lrange lreplace lsearch lsort",
          "namespace open package proc puts read regexp regsub rename return set source split",
          "string switch trace unset upvar variable vwait while"]),
       ("tk", joined
         ["bind button canvas checkbutton destroy entry event focus frame grid image label",
          "labelframe listbox menu menubutton message pack place radiobutton scale scrollbar",
          "spinbox text tk toplevel winfo wm"]),
       ("itcl", joined
         ["body class configbody constructor destructor inherit itcl_class method private",
          "protected public"]),
       ("tkcommands", .text "tk_chooseColor tk_chooseDirectory tk_getOpenFile tk_getSaveFile tk_messageBox"),
       ("expand", .text "*")]
    options := .ofList
      [("fold", .switch true),
       ("fold.comment", .switch true)] }

def scss : Definition :=
  { name := "scss"
    lexer? := some "scss"
    extensions := ["scss"]
    keywords := .ofList
      [("css1", joined
         ["background background-color background-image border border-color border-style",
          "border-width clear color display float font font-family font-size font-style",
          "font-weight height letter-spacing line-height list-style margin margin-bottom",
          "margin-left margin-right margin-top padding padding-bottom padding-left",
          "padding-right padding-top text-align text-decoration text-indent text-transform",
          "vertical-align white-space width word-spacing"]),
       ("pseudo_classes", .text "active first-child focus hover lang link visited"),
       ("css2", joined
         ["bottom clip content cursor direction left max-height max-width min-height",
          "min-width outline overflow position right top visibility z-index"]),
       ("css3", joined
         ["animation border-radius box-shadow box-sizing flex flex-direction gap",
          "grid-template-columns opacity text-shadow transform transition"]),
       ("pseudo_elements", .text "after before first-letter first-line selection"),
       ("browser_properties", .text "-moz-border-radius -webkit-border-radius -webkit-box-shadow -moz-box-shadow"),
       ("browser_pseudo_classes", .text "-moz-focusring -webkit-autofill"),
       ("browser_pseudo_elements", .text "-moz-selection -webkit-scrollbar")]
    options := .ofList
      [("fold", .switch true),
       ("fold.comment", .switch true)] }

def gibiane : Definition :=
  { name := "gibiane"
    lexer? := some "gibiane"
    extensions := ["dgibi", "procedur"]
    keywords := .ofList
      [("conditional", .text "si sinon finsi"),
       ("test", .text "ega neg inf sup infe supe"),
       ("loop", .text "repeter fin quitter iter"),
       ("task", .text "debproc finproc debmeth finmeth respro argu"),
       ("element", .text "mail point droi cercle surf volu elem"),
       ("function1", .text "opti titr list trac oubli"),
       ("function2", .text "mate model rigi resou"),
       ("operator", .text "et ou non")]
    options := .ofList
      [("fold", .switch true)] }

def r : Definition :=
  { name := "r"
    lexer? := some "r"
    extensions := ["r", "R", "rsource"]
    keywords := .ofList
      [("keywords", .text "break else FALSE for function if in Inf NA NaN next NULL repeat TRUE while"),
       ("base", joined
         ["abs c cat data.frame length library list matrix mean paste print rep seq sum",
          "vector"]),
       ("other", .text "ggplot aes geom_point lm glm")]
    options := .ofList
      [("fold", .switch true),
       ("fold.compact", .switch false)] }

def sql : Definition :=
  { name := "sql"
    lexer? := some "sql"
    extensions := ["sql"]
    keywords := .ofList
      [("keywords", joined
         ["all alter and as asc begin between by case create declare delete desc distinct",
          "drop else elsif end exception from function group having if in index insert into",
          "is join like loop not null or order procedure replace return select set table then",
          "union update values view when where while"]),
       ("database_objects", .text "dual sysdate user"),
       ("pldoc", .text "author deprecated param return see since throws version"),
       ("sqlplus", joined
         ["acc~ept a~ppend archive attribute bre~ak bti~tle c~hange cl~ear col~umn comp~ute",
          "conn~ect copy def~ine del desc~ribe disc~onnect e~dit exec~ute exit get help ho~st",
          "i~nput l~ist passw~ord pau~se pri~nt pro~mpt quit recover rem~ark repf~ooter",
          "reph~eader r~un sav~e set sho~w shutdown spo~ol sta~rt startup store timi~ng",
          "tti~tle undef~ine var~iable whenever"])]
    options := .ofList
      [("fold", .switch true),
       ("fold.comment", .switch true),
       ("fold.compact", .switch false)] }

/--
All definitions of the library.
-/
def bundled : List Definition :=
  [rust, haskell, tcl, scss, gibiane, r, sql]

end Highlight.Definition

namespace Highlight

def LanguageSet.bundled : LanguageSet :=
  ⟨Definition.bundled⟩

end Highlight
