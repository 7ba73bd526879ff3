import OnePass.Host.Registry

/-!
The host that programs are compiled against by default: mathematics, the console and
conversions.
-/

namespace OnePass
namespace Host

def systemType (name : String) : HostType :=
  ⟨name, ["System.Object"]⟩

def standardMath : List Registration :=
  let math := systemType "System.Math"
  [.type math,
   .field math "PI" .double, .field math "E" .double,
   .method math "Abs" [.int] .int, .method math "Abs" [.double] .double,
   .method math "Max" [.int, .int] .int, .method math "Max" [.double, .double] .double,
   .method math "Min" [.int, .int] .int, .method math "Min" [.double, .double] .double,
   .method math "Sqrt" [.double] .double,
   .method math "Pow" [.double, .double] .double]

def standardConsole : List Registration :=
  let console := systemType "System.Console"
  let writers := [Ty.int, .double, .bool, .char, .string].flatMap fun ty =>
    [.method console "WriteLine" [ty] .void, .method console "Write" [ty] .void]
  .type console :: writers ++
    [.method console "WriteLine" [] .void, .method console "ReadLine" [] .string]

def standardConvert : List Registration :=
  let convert := systemType "System.Convert"
  [.type convert,
   .method convert "ToInt32" [.string] .int, .method convert "ToInt32" [.double] .int,
   .method convert "ToDouble" [.string] .double, .method convert "ToDouble" [.int] .double,
   .method convert "ToString" [.int] .string, .method convert "ToString" [.double] .string]

def standard : Registry :=
  .ofRegistrations
    ([.type ⟨"System.Object", []⟩, .type (systemType "System.Text.StringBuilder")] ++
      standardMath ++ standardConsole ++ standardConvert)

end Host
end OnePass
