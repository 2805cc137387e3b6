/-!
The vocabulary of BFF files: functions, directives, keywords, built-in variables, and the
properties that each function takes.
-/
namespace BffLayout.Vocabulary

/-- Puts a name into an ascending list without repetition, ordered by code point. -/
def insertName (name : String) : List String → List String
  | [] => [name]
  | other :: rest =>
    if name < other then name :: other :: rest
    else if name = other then other :: rest
    else other :: insertName name rest

/-- The names in ascending order, each once. -/
def ascending (names : List String) : List String := names.foldr insertName []

def functions : List String :=
  ["Alias", "Compiler", "Copy", "CopyDir", "CSAssembly", "DLL", "Error", "Exec", "Executable",
    "ForEach", "If", "Library", "ListDependencies", "ObjectList", "Print", "RemoveDir", "Settings",
    "Test", "TextFile", "Unity", "Using", "VCXProject", "VSProjectExternal", "VSSolution",
    "XCodeProject"]

/-- Names of directives, without the hash. -/
def directives : List String :=
  ["define", "else", "endif", "if", "import", "include", "once", "undef"]

def keywords : List String :=
  ["true", "false", "in", "not", "exists", "file_exists"]

/-- Variables that are defined before a file is read. -/
def builtinVariables : List String :=
  ["_CURRENT_BFF_DIR_", "_FASTBUILD_EXE_PATH_", "_FASTBUILD_VERSION_", "_FASTBUILD_VERSION_STRING_",
    "_WORKING_DIR_"]

/-- Properties of most functions that build something. -/
def commonProperties : List String :=
  ["Hidden", "PreBuildDependencies"]

def compilationProperties : List String :=
  ["AllowCaching", "AllowDistribution", "Compiler", "CompilerForceUsing",
    "CompilerInputAllowNoFiles", "CompilerInputExcludedFiles", "CompilerInputExcludePath",
    "CompilerInputExcludePattern", "CompilerInputFiles", "CompilerInputFilesRoot",
    "CompilerInputObjectLists", "CompilerInputPath", "CompilerInputPathRecurse",
    "CompilerInputPattern", "CompilerInputUnity", "CompilerOptions", "CompilerOptionsDeoptimized",
    "CompilerOutputExtension", "CompilerOutputKeepBaseExtension", "CompilerOutputPath",
    "CompilerOutputPrefix", "DeoptimizeWritableFiles", "DeoptimizeWritableFilesWithToken",
    "PCHInputFile", "PCHOptions", "PCHOutputFile", "Preprocessor", "PreprocessorOptions"]

def linkerProperties : List String :=
  ["Environment", "Libraries", "Libraries2", "Linker", "LinkerAllowResponseFile",
    "LinkerAssemblyResources", "LinkerForceResponseFile", "LinkerLinkObjects", "LinkerOptions",
    "LinkerOutput", "LinkerStampExe", "LinkerStampExeArgs", "LinkerType"]

def librarianProperties : List String :=
  ["Librarian", "LibrarianAdditionalInputs", "LibrarianAllowResponseFile",
    "LibrarianForceResponseFile", "LibrarianOptions", "LibrarianOutput", "LibrarianType"]

def projectProperties : List String :=
  ["ProjectAllowedFileExtensions", "ProjectBasePath", "ProjectBuildCommand", "ProjectCleanCommand",
    "ProjectConfigs", "ProjectFiles", "ProjectFilesToExclude", "ProjectGuid", "ProjectInputPaths",
    "ProjectInputPathsExclude", "ProjectOutput", "ProjectRebuildCommand"]

/-- The properties of each function, in groups. A function that takes none is absent. -/
def propertyGroups : List (String × List (List String)) :=
  [("Alias", [
    ["Hidden", "Targets"]]),
  ("Compiler", [
    ["AllowDistribution", "AllowResponseFile", "ClangGCCUpdateXLanguageArg", "ClangRewriteIncludes",
      "CompilerFamily", "CustomEnvironmentVariables", "Environment", "Executable",
      "ExecutableRootPath", "ExtraFiles", "ForceResponseFile", "SimpleDistributionMode",
      "SourceMapping_Experimental", "UseLightCache_Experimental", "UseRelativePaths_Experimental",
      "VS2012EnumBugFix"]]),
  ("Copy", [
    commonProperties,
    ["Dest", "Source", "SourceBasePath"]]),
  ("CopyDir", [
    commonProperties,
    ["Dest", "SourceExcludePaths", "SourcePaths", "SourcePathsPattern", "SourcePathsRecurse"]]),
  ("CSAssembly", [
    commonProperties,
    ["CompilerInputExcludedFiles", "CompilerInputExcludePath", "CompilerInputFiles",
      "CompilerInputPath", "CompilerInputPathRecurse", "CompilerInputPattern", "CompilerOptions",
      "CompilerOutput", "CompilerReferences", "Compiler"]]),
  ("DLL", [
    commonProperties,
    linkerProperties]),
  ("Exec", [
    commonProperties,
    ["Environment", "ExecAlways", "ExecArguments", "ExecExecutable", "ExecInput",
      "ExecInputExcludedFiles", "ExecInputExcludePath", "ExecInputPath", "ExecInputPathRecurse",
      "ExecInputPattern", "ExecOutput", "ExecReturnCode", "ExecUseStdOutAsOutput", "ExecWorkingDir"]]),
  ("Executable", [
    commonProperties,
    linkerProperties]),
  ("Library", [
    commonProperties,
    compilationProperties,
    librarianProperties]),
  ("ListDependencies", [
    commonProperties,
    ["Dest", "Patterns", "Source"]]),
  ("ObjectList", [
    commonProperties,
    compilationProperties]),
  ("RemoveDir", [
    commonProperties,
    ["RemoveExcludeFiles", "RemoveExcludePaths", "RemovePaths", "RemovePathsRecurse",
      "RemovePatterns"]]),
  ("Settings", [
    ["CachePath", "CachePathMountPoint", "CachePluginDLL", "CachePluginDLLConfig",
      "ConcurrencyGroups", "DistributableJobMemoryLimitMiB", "Environment", "WorkerConnectionLimit",
      "Workers"]]),
  ("Test", [
    commonProperties,
    ["Environment", "TestAlwaysShowOutput", "TestArguments", "TestExecutable", "TestInput",
      "TestInputExcludedFiles", "TestInputExcludePath", "TestInputPath", "TestInputPathRecurse",
      "TestInputPattern", "TestOutput", "TestTimeOut", "TestWorkingDir"]]),
  ("TextFile", [
    commonProperties,
    ["TextFileAlways", "TextFileInputStrings", "TextFileOutput"]]),
  ("Unity", [
    commonProperties,
    ["UnityInputExcludedFiles", "UnityInputExcludePath", "UnityInputExcludePattern",
      "UnityInputFiles", "UnityInputIsolatedFiles", "UnityInputIsolateListFile",
      "UnityInputIsolateWritableFiles", "UnityInputIsolateWritableFilesLimit",
      "UnityInputObjectLists", "UnityInputPath", "UnityInputPathRecurse", "UnityInputPattern",
      "UnityNumFiles", "UnityOutputPath", "UnityOutputPattern", "UnityPCH",
      "UseRelativePaths_Experimental"]]),
  ("VCXProject", [
    projectProperties,
    ["Config", "IntermediateDirectory", "Output", "Platform", "PlatformToolset",
      "ProjectReferences", "ProjectSccEntrySAK"]]),
  ("VSProjectExternal", [
    ["ExternalProjectPath", "ProjectConfigs", "ProjectGuid", "ProjectTypeGuid"]]),
  ("VSSolution", [
    ["SolutionBuildProject", "SolutionConfigs", "SolutionDependencies", "SolutionDeployProjects",
      "SolutionFolders", "SolutionMinimumVisualStudioVersion", "SolutionOutput", "SolutionProjects",
      "SolutionVisualStudioVersion"]]),
  ("XCodeProject", [
    projectProperties,
    ["XCodeBuildToolArgs", "XCodeBuildToolPath", "XCodeBuildWorkingDir", "XCodeDocumentVersioning",
      "XCodeOrganizationName"]])]

/-- The properties of a function, ascending; none for a function that takes none. -/
def propertiesOf? (function : String) : Option (List String) :=
  (propertyGroups.lookup function).map fun groups => ascending groups.flatten

/-- The properties of all functions together, ascending. -/
def properties : List String := ascending (propertyGroups.flatMap fun entry => entry.2.flatten)

/-- The functions and keywords together, ascending. -/
def words : List String := ascending (functions ++ keywords)

end BffLayout.Vocabulary
