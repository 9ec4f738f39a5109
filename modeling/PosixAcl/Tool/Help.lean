import PosixAcl.Tool.Arguments

/-!
# Names and help texts of the tools
-/

namespace PosixAcl.Tool

/-- The name of a tool in its messages. -/
def program : Tool → Text
  | .getfacl => "oc-getfacl".toList
  | .setfacl => "oc-setfacl".toList

/-- The operands of a tool in short. -/
def usage : Tool → Text
  | .getfacl => "[-R] <path>".toList
  | .setfacl =>
    ("[-R] [\x7b-b|-k\x7d \x7b-m|-x <acl_spec>\x7d <path>]|" ++
      "[--set <acl_spec> <path>]").toList

/-- What a tool does and what its flags mean, line by line. -/
def description : Tool → List Text
  | .getfacl =>
    [("Displays the Access Control Lists (ACLs) of files and directories. If a " ++
        "directory has a default ACL, then getfacl also displays the default ACL.").toList,
      "-R: List the ACLs of all files and directories recursively.".toList,
      "<path>: File or directory to list.".toList]
  | .setfacl =>
    ["Sets Access Control Lists (ACLs) of files and directories.".toList,
      "Options:".toList,
      ("-b :Remove all but the base ACL entries. The entries for user, group and " ++
        "others are retained for compatibility with permission bits.").toList,
      "-k :Remove the default ACL.".toList,
      "-R :Apply operations to all files and directories recursively.".toList,
      ("-m :Modify ACL. New entries are added to the ACL, and existing entries are " ++
        "retained.").toList,
      "-x :Remove specified ACL entries. Other ACL entries are retained.".toList,
      ("--set :Fully replace the ACL, discarding all existing entries. The " ++
        "<acl_spec> must include entries for user, group, and others for " ++
        "compatibility with permission bits.").toList,
      "<acl_spec>: Comma separated list of ACL entries.".toList,
      "<path>: File or directory to modify.".toList]

/-- The help text of a tool. -/
def help (tool : Tool) : Text :=
  "Usage: ".toList ++ tool.program ++ [' '] ++ tool.usage ++ ['\n', '\n'] ++
    tool.description.flatMap (· ++ ['\n'])

/-- The message that follows a wrong command line. -/
def usageHint (tool : Tool) : Text :=
  "usage: ".toList ++ tool.program ++ [' '] ++ tool.usage

end PosixAcl.Tool
