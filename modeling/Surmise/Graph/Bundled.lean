import Surmise.Graph.Builder

/-!
# The bundled graph

The builtin module, a slice of the standard library and the model layer of one framework.
-/

namespace Surmise.Graph

/-- A path; a name without dots is that of a builtin. -/
def bundledPath (name : String) : String := if name.contains '.' then name else "builtins." ++ name

/-- Declares each entry below the node. -/
def declareIn (declare : Graph → String → String → Graph) (g : Graph) (node : String)
    (entries : List (String × String)) : Graph :=
  entries.foldl (fun g entry => declare g (node ++ "." ++ entry.1) (bundledPath entry.2)) g

def classesIn : Graph → String → List (String × String) → Graph :=
  declareIn fun g path base => g.declareClass path [base]

def functionsIn : Graph → String → List (String × String) → Graph :=
  declareIn fun g path returns => g.declareFunction path (some returns)

def instancesIn : Graph → String → List (String × String) → Graph := declareIn declareInstance

/-- Makes names below a node stand for the nodes of these names below another. -/
def aliasesIn (g : Graph) (node target : String) (names : List String) : Graph :=
  names.foldl (fun g name => g.declareAlias (node ++ "." ++ name) (target ++ "." ++ name)) g

def bundledDistributions : List (String × List String) :=
  ["builtins", "io", "posixpath", "os", "sys", "json", "re", "collections", "logging", "time", "math",
    "subprocess"].map (·, ["python"]) ++ [("django", ["Django"])]

def withBuiltins (g : Graph) : Graph := g
  |>.declareClass "builtins.object" []
  |>.classesIn "builtins" [("type", "object"), ("NoneType", "object"), ("bool", "int"), ("int", "object"),
    ("float", "object"), ("complex", "object"), ("str", "object"), ("bytes", "object"), ("list", "object"),
    ("dict", "object"), ("set", "object"), ("frozenset", "object"), ("tuple", "object"), ("super", "object"),
    ("property", "object"), ("slice", "object"), ("staticmethod", "object"), ("classmethod", "object"),
    ("bytearray", "object"), ("memoryview", "object"), ("BaseException", "object")]
  |>.instancesIn "builtins.BaseException" [("args", "tuple")]
  |>.functionsIn "builtins.BaseException" [("with_traceback", "BaseException")]
  |>.classesIn "builtins" [("Exception", "BaseException"), ("LookupError", "Exception"),
    ("ValueError", "Exception"), ("TypeError", "Exception"), ("KeyError", "LookupError"),
    ("IndexError", "LookupError"), ("AttributeError", "Exception"), ("ImportError", "Exception"),
    ("ModuleNotFoundError", "ImportError"), ("RuntimeError", "Exception"),
    ("NotImplementedError", "RuntimeError"), ("StopIteration", "Exception"), ("OSError", "Exception"),
    ("FileNotFoundError", "OSError"), ("ZeroDivisionError", "Exception"), ("AssertionError", "Exception"),
    ("NameError", "Exception"), ("KeyboardInterrupt", "BaseException"), ("SystemExit", "BaseException")]
  |>.declareAlias "builtins.IOError" "builtins.OSError"
  |>.instancesIn "builtins.OSError" [("errno", "int"), ("filename", "str")]
  |>.functionsIn "builtins" [("print", "NoneType"), ("open", "io.TextIOWrapper"), ("format", "str"),
    ("ascii", "str"), ("bin", "str"), ("hex", "str"), ("oct", "str"), ("locals", "dict"),
    ("setattr", "NoneType"), ("delattr", "NoneType"), ("exec", "NoneType"), ("compile", "object")]
  |>.instancesIn "builtins" [("NotImplemented", "object"), ("Ellipsis", "object"), ("__name__", "str"),
    ("__doc__", "str")]

def withIo (g : Graph) : Graph := g
  |>.classesIn "io" [("IOBase", "object")]
  |>.functionsIn "io.IOBase" [("close", "NoneType"), ("flush", "NoneType"), ("readable", "bool"),
    ("writable", "bool"), ("fileno", "int"), ("seek", "int"), ("tell", "int")]
  |>.classesIn "io" [("TextIOWrapper", "io.IOBase")]
  |>.functionsIn "io.TextIOWrapper" [("read", "str"), ("readline", "str"), ("readlines", "list"),
    ("write", "int"), ("writelines", "NoneType")]
  |>.instancesIn "io.TextIOWrapper" [("name", "str")]
  |>.classesIn "io" [("StringIO", "io.TextIOWrapper")]
  |>.functionsIn "io.StringIO" [("getvalue", "str")]
  |>.classesIn "io" [("BytesIO", "io.IOBase")]
  |>.functionsIn "io.BytesIO" [("getvalue", "bytes"), ("read", "bytes")]

def withPosixpath (g : Graph) : Graph := g
  |>.functionsIn "posixpath" [("join", "str"), ("exists", "bool"), ("isdir", "bool"), ("isfile", "bool"),
    ("basename", "str"), ("dirname", "str"), ("abspath", "str"), ("realpath", "str"), ("splitext", "tuple"),
    ("split", "tuple"), ("expanduser", "str"), ("getsize", "int"), ("normpath", "str")]
  |>.instancesIn "posixpath" [("sep", "str")]

def withOs (g : Graph) : Graph := g
  |>.declareAlias "os.path" "posixpath"
  |>.functionsIn "os" [("getcwd", "str"), ("listdir", "list"), ("remove", "NoneType"),
    ("makedirs", "NoneType"), ("mkdir", "NoneType"), ("getenv", "str"), ("walk", "object"),
    ("chdir", "NoneType"), ("getpid", "int"), ("system", "int")]
  |>.instancesIn "os" [("environ", "os._Environ")]
  |>.classesIn "os" [("_Environ", "dict")]
  |>.functionsIn "os._Environ" [("get", "str")]
  |>.instancesIn "os" [("sep", "str"), ("name", "str")]

def withSys (g : Graph) : Graph := g
  |>.instancesIn "sys" [("argv", "list"), ("path", "list"), ("version", "str"), ("platform", "str")]
  |>.functionsIn "sys" [("exit", "NoneType")]
  |>.instancesIn "sys" [("stdout", "io.TextIOWrapper"), ("stderr", "io.TextIOWrapper"),
    ("stdin", "io.TextIOWrapper")]

def withJson (g : Graph) : Graph := g
  |>.functionsIn "json" [("dumps", "str"), ("loads", "object"), ("dump", "NoneType"), ("load", "object")]
  |>.classesIn "json" [("JSONDecodeError", "ValueError")]

def withRe (g : Graph) : Graph := g
  |>.classesIn "re" [("Pattern", "object"), ("Match", "object")]
  |>.functionsIn "re" [("compile", "re.Pattern"), ("match", "re.Match"), ("search", "re.Match"),
    ("fullmatch", "re.Match"), ("sub", "str"), ("split", "list"), ("findall", "list"), ("escape", "str")]
  |>.functionsIn "re.Pattern" [("match", "re.Match"), ("search", "re.Match"), ("fullmatch", "re.Match"),
    ("sub", "str"), ("split", "list"), ("findall", "list")]
  |>.instancesIn "re.Pattern" [("pattern", "str")]
  |>.functionsIn "re.Match" [("group", "str"), ("groups", "tuple"), ("groupdict", "dict"), ("start", "int"),
    ("end", "int"), ("span", "tuple")]
  |>.instancesIn "re" [("IGNORECASE", "int"), ("MULTILINE", "int")]

def withCollections (g : Graph) : Graph := g
  |>.classesIn "collections" [("OrderedDict", "dict"), ("defaultdict", "dict"), ("Counter", "dict")]
  |>.functionsIn "collections.Counter" [("most_common", "list")]
  |>.classesIn "collections" [("deque", "object")]
  |>.functionsIn "collections.deque" [("append", "NoneType"), ("appendleft", "NoneType"), ("pop", "object"),
    ("popleft", "object")]
  |>.functionsIn "collections" [("namedtuple", "type")]

def withLogging (g : Graph) : Graph := g
  |>.classesIn "logging" [("Logger", "object")]
  |>.functionsIn "logging.Logger" [("debug", "NoneType"), ("info", "NoneType"), ("warning", "NoneType"),
    ("error", "NoneType"), ("exception", "NoneType"), ("critical", "NoneType"), ("setLevel", "NoneType"),
    ("addHandler", "NoneType")]
  |>.instancesIn "logging.Logger" [("name", "str")]
  |>.functionsIn "logging" [("getLogger", "logging.Logger"), ("basicConfig", "NoneType")]
  |>.instancesIn "logging" [("DEBUG", "int"), ("INFO", "int"), ("WARNING", "int"), ("ERROR", "int"),
    ("CRITICAL", "int")]

def withTime (g : Graph) : Graph := g
  |>.functionsIn "time" [("time", "float"), ("sleep", "NoneType"), ("strftime", "str")]

def withMath (g : Graph) : Graph := g
  |>.functionsIn "math" [("sqrt", "float"), ("floor", "int"), ("ceil", "int"), ("log", "float"),
    ("exp", "float"), ("sin", "float"), ("cos", "float")]
  |>.instancesIn "math" [("pi", "float"), ("e", "float")]

def withSubprocess (g : Graph) : Graph := g
  |>.classesIn "subprocess" [("CompletedProcess", "object")]
  |>.instancesIn "subprocess.CompletedProcess" [("returncode", "int"), ("stdout", "str")]
  |>.functionsIn "subprocess" [("run", "subprocess.CompletedProcess"), ("check_output", "bytes")]
  |>.instancesIn "subprocess" [("PIPE", "int")]

def withDjango (g : Graph) : Graph := g
  |>.classesIn "django.db.models.base" [("Model", "object")]
  |>.functionsIn "django.db.models.base.Model" [("save", "NoneType"), ("delete", "tuple"),
    ("full_clean", "NoneType"), ("refresh_from_db", "NoneType")]
  |>.declareAlias "django.db.models.Model" "django.db.models.base.Model"
  |>.classesIn "django.db.models.fields" [("Field", "object")]
  |>.classesIn "django.core.exceptions" [("ObjectDoesNotExist", "Exception"),
    ("MultipleObjectsReturned", "Exception")]
  |>.classesIn "django.db.models.fields" [("CharField", "django.db.models.fields.Field"),
    ("TextField", "django.db.models.fields.Field"), ("IntegerField", "django.db.models.fields.Field"),
    ("BooleanField", "django.db.models.fields.Field"), ("DateTimeField", "django.db.models.fields.Field"),
    ("FloatField", "django.db.models.fields.Field"), ("ForeignKey", "django.db.models.fields.Field")]
  |>.aliasesIn "django.db.models" "django.db.models.fields" ["CharField", "TextField", "IntegerField",
    "BooleanField", "DateTimeField", "FloatField", "ForeignKey"]

def bundledPopularity : List (String × Nat) :=
  [("builtins", 1000), ("builtins.Exception", 300), ("builtins.print", 900), ("builtins.open", 500),
    ("posixpath.join", 200), ("os", 800), ("sys", 600), ("json", 400), ("re", 300)]

/-- The graph that an analysis uses unless it is given another. -/
def bundled : Graph :=
  let declared := ({ empty with distributions := .ofList bundledDistributions } : Graph)
    |>.withBuiltins |>.withIo |>.withPosixpath |>.withOs |>.withSys |>.withJson |>.withRe
    |>.withCollections |>.withLogging |>.withTime
    |>.withMath |>.withSubprocess |>.withDjango
  bundledPopularity.foldl (fun g entry => g.setPopularity entry.1 entry.2) declared

end Surmise.Graph
