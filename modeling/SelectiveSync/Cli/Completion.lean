import SelectiveSync.Cli.Command
import SelectiveSync.Cli.Option

/-! # Completions

Scripts that let a shell complete the verbs and options of the command line. -/
namespace SelectiveSync.Cli
set_option autoImplicit false

def optionWords (o : Opt) : List String :=
  (o.short?.map fun c => String.ofList ['-', c]).toList ++ o.names.map ("--" ++ ·)

/-- Everything that may follow the program's name. -/
def completionWords : List String :=
  Verb.all.map Verb.name
    ++ ((.version :: commonOptions ++ Verb.all.flatMap Verb.options).eraseDups).flatMap optionWords

/-- The words with a space between each two. -/
def wordLine : String :=
  " ".intercalate completionWords

def quotedWords (between : String) : String :=
  between.intercalate (completionWords.map fun w => "'" ++ w ++ "'")

def completionScript : Shell → String
  | .bash => "complete -W \"" ++ wordLine ++ "\" -o default offsync\n"
  | .zsh => "#compdef offsync\ncompadd -- " ++ wordLine ++ "\n"
  | .fish => "complete -c offsync -a \"" ++ wordLine ++ "\"\n"
  | .elvish =>
    "set edit:completion:arg-completer[offsync] = \x7b|@words| put " ++ quotedWords " " ++ " \x7d\n"
  | .powershell =>
    "Register-ArgumentCompleter -Native -CommandName 'offsync' -ScriptBlock \x7b\n"
      ++ "    param($word)\n    @(" ++ quotedWords ", "
      ++ ") | Where-Object \x7b $_ -like \"$word*\" \x7d\n\x7d\n"

end SelectiveSync.Cli
